import QwenHarness.Policy.Combine

/-!
# From a call of the model to the worker

The pipeline checks the arguments of a call, derives its action, asks policy, and only then hands
the call to the worker. When policy asks, the call comes back as `needs-approval`; the approval is
minted as a grant, and the call is run again, which decides anew.

The grants are heard at one stage, and two come after it: the hooks and the managed ceiling. A
question one of these puts stays whatever was granted, so an approval settles exactly the questions
that come from neither.
-/

namespace QwenHarness.Tools

open Policy

/-! ## Tools -/

inductive ValidationCategory where
  | invalidInput
  | semanticInvalid
deriving DecidableEq, Repr

structure ValidationFailure where
  category : ValidationCategory
  message : String
deriving DecidableEq, Repr

/-- The arguments of a tool: their shape, and what holds beyond it. -/
structure ToolDefinition (α ι : Type) where
  inputSchema : α → Except String ι
  validate : ι → Option String

def validateCall {α ι : Type} (tool : ToolDefinition α ι) (rawArguments : α) :
    Except ValidationFailure ι :=
  match tool.inputSchema rawArguments with
  | .error message => .error ⟨.invalidInput, message⟩
  | .ok input =>
    match tool.validate input with
    | some message => .error ⟨.semanticInvalid, message⟩
    | none => .ok input

/-- A tool of the worker: its arguments, what it does with them, and the request to the worker. -/
structure BuiltinTool (α ι ρ : Type) where
  name : String
  definition : ToolDefinition α ι
  toAction : ι → (workspaceRoot : String) → NormalizedAction
  toWorkerRequest : ι → ρ

/-! ## The pipeline -/

inductive RejectionStage where
  | schema
  | semantic
  | unknownTool
deriving DecidableEq, Repr

inductive PipelineDecision (α ι ρ : Type) where
  | rejected (stage : RejectionStage) (message : String)
  | denied (reason source : String)
  | needsApproval (actionDigest description : String) (action : NormalizedAction)
      (reason source : String)
  | approved (action : NormalizedAction) (actionDigest description reason source : String)
      (tool : BuiltinTool α ι ρ) (arguments : ι)

inductive PipelineOutcome (ω : Type) where
  | rejected (stage : RejectionStage) (message : String)
  | denied (reason source : String)
  | needsApproval (actionDigest description : String) (action : NormalizedAction)
  | executed (response : ω) (action : NormalizedAction) (actionDigest : String)
      (isSideEffect : Bool)

/-- What the worker is started with. -/
structure WorkerInput (ρ γ : Type) where
  workspaceRoot : String
  isolation : IsolationMode
  grant : γ
  request : ρ

/-- A call to decide, with the context to decide it in. -/
structure DecideInput (α : Type) where
  callId : String
  toolName : String
  rawArguments : α
  policyContext : PolicyContext

structure ExecuteInput (α γ : Type) extends DecideInput α where
  grant : γ
  isolation : IsolationMode

/-- The pipeline over its tools and its worker, which may throw and may change the outside. -/
structure ToolPipeline (α ι ρ γ ω ε σ : Type) where
  sys : Platform
  registry : String → Option (ToolDefinition α ι)
  builtins : List (BuiltinTool α ι ρ)
  run : WorkerInput ρ γ → σ → Except ε ω × σ

def DecisionStage.name : DecisionStage → String
  | .inputValidation => "input-validation"
  | .profile => "profile"
  | .protectedPath => "protected-path"
  | .rule => "rule"
  | .grant => "grant"
  | .hook => "hook"
  | .managed => "managed"
  | .userPassthrough => "user-passthrough"

section Pipeline

variable {α ι ρ γ ω ε σ : Type} (pipeline : ToolPipeline α ι ρ γ ω ε σ)

/-- The tool of a name. The last of several is the one. -/
def ToolPipeline.byName (toolName : String) : Option (BuiltinTool α ι ρ) :=
  pipeline.builtins.reverse.find? fun tool ↦ decide (tool.name = toolName)

/-- Ask policy about arguments that passed the checks. -/
def ToolPipeline.consult (tool : BuiltinTool α ι ρ) (args : ι) (ctx : PolicyContext) :
    PipelineDecision α ι ρ :=
  let action := tool.toAction args ctx.workspaceRoot
  let decision := evaluate pipeline.sys action ctx
  let source := DecisionStage.name decision.source.stage ++ ":" ++ decision.source.id
  match decision.outcome with
  | .deny => .denied decision.reason source
  | .ask =>
    .needsApproval decision.actionDigest decision.description action decision.reason source
  | _ => .approved action decision.actionDigest decision.description decision.reason source tool args

/-- Check the arguments and ask policy. Nothing is touched. -/
def ToolPipeline.judge (input : DecideInput α) : PipelineDecision α ι ρ :=
  match pipeline.byName input.toolName with
  | none => .rejected .unknownTool ("no such tool: " ++ input.toolName)
  | some tool =>
    match validateCall ((pipeline.registry input.toolName).getD tool.definition)
        input.rawArguments with
    | .error failure =>
      .rejected (if failure.category = .invalidInput then .schema else .semantic) failure.message
    | .ok args => pipeline.consult tool args input.policyContext

/-- Run a call as far as it goes without asking anyone. It always decides anew. -/
def ToolPipeline.execute (input : ExecuteInput α γ) (w : σ) : Except ε (PipelineOutcome ω) × σ :=
  match pipeline.judge input.toDecideInput with
  | .rejected stage message => (.ok (.rejected stage message), w)
  | .denied reason source => (.ok (.denied reason source), w)
  | .needsApproval digest description action _ _ =>
    (.ok (.needsApproval digest description action), w)
  | .approved action _ _ _ _ tool arguments =>
    match pipeline.run
        ⟨input.policyContext.workspaceRoot, input.isolation, input.grant,
          tool.toWorkerRequest arguments⟩ w with
    | (.error e, w') => (.error e, w')
    | (.ok response, w') =>
      (.ok (.executed response action (actionDigest pipeline.sys action) (isSideEffect action)), w')

variable {pipeline} {input : DecideInput α} {tool : BuiltinTool α ι ρ}

theorem judge_of_unknown (hb : pipeline.byName input.toolName = none) :
    pipeline.judge input = .rejected .unknownTool ("no such tool: " ++ input.toolName) := by
  rw [ToolPipeline.judge, hb]

theorem judge_of_invalid {failure : ValidationFailure}
    (hb : pipeline.byName input.toolName = some tool)
    (hv : validateCall ((pipeline.registry input.toolName).getD tool.definition)
      input.rawArguments = .error failure) :
    pipeline.judge input =
      .rejected (if failure.category = .invalidInput then .schema else .semantic)
        failure.message := by
  rw [ToolPipeline.judge, hb]
  dsimp only
  rw [hv]

theorem judge_of_valid {args : ι} (hb : pipeline.byName input.toolName = some tool)
    (hv : validateCall ((pipeline.registry input.toolName).getD tool.definition)
      input.rawArguments = .ok args) :
    pipeline.judge input = pipeline.consult tool args input.policyContext := by
  rw [ToolPipeline.judge, hb]
  dsimp only
  rw [hv]

end Pipeline

/-! ## Grants in a session -/

/-- The live approvals of a session. -/
structure GrantStore where
  grants : List Grant
deriving Repr

namespace GrantStore

/-- What is minted for a yes. It is always about one action. -/
def minted (id actionDigest : String) (scope : GrantScope) (now : ℤ) (grantedBy : String) : Grant where
  id := id
  scope := if scope = .rule then .session else scope
  actionDigest := some actionDigest
  «match» := none
  grantedAt := now
  expiresAt := none
  revokedAt := none
  usedAt := none
  grantedBy := grantedBy
  reason := "interactive approval"

def add (store : GrantStore) (id actionDigest : String) (scope : GrantScope) (now : ℤ)
    (grantedBy : String) : GrantStore :=
  ⟨store.grants ++ [minted id actionDigest scope now grantedBy]⟩

/-- Spend the first unspent `once` grant for an action. -/
def consume (store : GrantStore) (actionDigest : String) (now : ℤ) : GrantStore :=
  match store.grants.find? fun g ↦
      decide (g.scope = .once ∧ g.actionDigest = some actionDigest ∧ g.usedAt = none) with
  | some grant => ⟨consumeGrant store.grants grant.id now⟩
  | none => store

/-- What is minted is a live grant for exactly the action, at any time. -/
theorem isExactFor_minted (id digest : String) (scope : GrantScope) (now : ℤ) (grantedBy : String)
    (later : ℤ) : (minted id digest scope now grantedBy).IsExactFor digest later := by
  refine ⟨?_, rfl, ?_⟩
  · cases scope <;> exact nofun
  · cases scope <;> rfl

end GrantStore

/-! ## What an approval settles -/

section Approval

variable {sys : Platform} {action : NormalizedAction} {ctx : PolicyContext}

/-- Nobody but the profile, the protected paths and the rules has a question: no hook asks and no
managed rule that matches does. -/
def Settleable (sys : Platform) (action : NormalizedAction) (ctx : PolicyContext) : Prop :=
  ctx.hookOutcome ≠ some .ask ∧ ∀ rule ∈ ctx.managedPolicy.rules, rule.effect = .ask →
    matchesAction rule.match action ctx.homeDir (actionDigest sys action) = false

/-- A grant for exactly the action is found at every level that asks. -/
theorem settled_eq_allow {lvl : Level} {granted : Bool → Bool} (hl : lvl ≠ .closed)
    (hg : ∀ exactOnly, granted exactOnly = true) : settled lvl granted = .allow := by
  unfold settled
  cases lvl with
  | closed => exact absurd rfl hl
  | free => rfl
  | prompt => exact if_pos ⟨rfl, hg _⟩
  | guarded => exact if_pos ⟨rfl, hg _⟩

theorem stage_grantStage {p : Progress} {lvl : Level} (hp : p.At lvl) (hl : lvl.restriction = .ask)
    (hg : ∀ exactOnly, granted sys action ctx exactOnly = true) :
    (grantStage action ctx (actionDigest sys action) p).verdict.source.stage = .grant := by
  have hfound := isSome_findGrant.mpr (granted_eq_true_iff.mp (hg lvl.exactOnly))
  unfold grantStage
  rw [if_pos (hp.effect.trans hl), hp.exact (by rintro rfl; cases hl)]
  obtain ⟨grant, hgrant⟩ := Option.isSome_iff_exists.mp hfound
  simp [hgrant, Progress.turn]

theorem verdict_hookStage {hookOutcome : Option DecisionOutcome} {p : Progress}
    (h : hookRestriction hookOutcome = .allow) :
    (hookStage hookOutcome p).verdict = p.verdict := by
  rcases hookOutcome with - | - | - | - | -
  · rfl
  · rfl
  · cases h
  · cases h
  · rfl

/-- What asks is canonical, and neither the hook nor the ceiling denies it. -/
theorem of_outcome_eq_ask (h : (evaluate sys action ctx).outcome = .ask) :
    checkCanonicalAction sys action = [] ∧
      ruled (level sys action ctx)
        (opinions ctx.rules action ctx.homeDir (actionDigest sys action)) ≠ .closed ∧
      hookRestriction ctx.hookOutcome ≤ .ask ∧
      ctx.managedPolicy.restriction action ctx.homeDir (actionDigest sys action) ≤ .ask := by
  have hc : checkCanonicalAction sys action = [] := by
    by_contra hc
    rw [outcome_of_not_canonical hc] at h
    cases h
  rw [← DecisionOutcome.restriction_eq_ask_iff, restriction_evaluate hc] at h
  have hle := le_of_eq h
  rw [sup_le_iff, sup_le_iff] at hle
  refine ⟨hc, ?_, hle.1.2, hle.2⟩
  intro hclosed
  have ha := hle.1.1
  rw [answer, hclosed] at ha
  have hdeny : Restriction.deny ≤ Restriction.ask := ha
  exact absurd hdeny (by decide)

theorem restriction_of_settled {lvl : Level} {granted : Bool → Bool}
    (h : settled lvl granted = .ask) : lvl.restriction = .ask := by
  unfold settled at h
  split at h
  · cases h
  · exact h

theorem hookRestriction_eq_allow_iff {hookOutcome : Option DecisionOutcome}
    (h : hookRestriction hookOutcome ≤ .ask) :
    hookRestriction hookOutcome = .allow ↔ hookOutcome ≠ some .ask := by
  rcases hookOutcome with - | - | - | - | - <;> revert h <;> decide

theorem managedRestriction_eq_allow_iff {m : ManagedPolicy} {homeDir digest : String}
    (h : m.restriction action homeDir digest ≤ .ask) :
    m.restriction action homeDir digest = .allow ↔
      ∀ rule ∈ m.rules, rule.effect = .ask →
        matchesAction rule.match action homeDir digest = false := by
  have hrules : m.restriction action homeDir digest =
      managedRestriction action homeDir digest m.rules := by
    refine if_neg fun hoff ↦ ?_
    rw [ManagedPolicy.restriction, if_pos hoff] at h
    exact absurd h (by decide)
  rw [hrules] at h ⊢
  constructor
  · intro ha rule hr he
    rw [← Bool.not_eq_true]
    intro hm
    have hle := restriction_le_managedRestriction hr hm
    rw [ha, he] at hle
    exact absurd hle (by decide)
  · intro hask
    refine Restriction.le_allow_iff.mp (managedRestriction_le fun rule hr hm ↦ ?_)
    cases he : rule.effect with
    | ask => exact absurd ((hask rule hr he).symm.trans hm) (by decide)
    | deny =>
      have hle := (restriction_le_managedRestriction hr hm).trans h
      rw [he] at hle
      exact absurd hle (by decide)

section Granted

variable (hask : (evaluate sys action ctx).outcome = .ask) {grants : List Grant} {now : ℤ}
  {grant : Grant} (hg : grant ∈ grants) (hx : grant.IsExactFor (actionDigest sys action) now)

include hg hx in
theorem granted_of_isExactFor (exactOnly : Bool) :
    granted sys action { ctx with grants, now } exactOnly = true :=
  granted_eq_true_iff.mpr ⟨grant, hg, hx.settles exactOnly⟩

include hask hg hx

/-- With a grant for exactly the action, only the hook and the ceiling are left. -/
theorem restriction_of_granted :
    (evaluate sys action { ctx with grants, now }).outcome.restriction =
      hookRestriction ctx.hookOutcome ⊔
        ctx.managedPolicy.restriction action ctx.homeDir (actionDigest sys action) := by
  obtain ⟨hc, hclosed, -, -⟩ := of_outcome_eq_ask hask
  rw [restriction_evaluate hc, answer]
  have hgranted := @granted_of_isExactFor sys action ctx grants now grant hg hx
  have hanswer := settled_eq_allow hclosed hgranted
  exact congrArg (· ⊔ _) ((congrArg (· ⊔ _) hanswer).trans (bot_sup_eq _))

/-- A question about an action is settled by a grant for exactly this action, at any time, exactly
if neither a hook nor a managed rule has one. -/
theorem permits_iff_settleable :
    (evaluate sys action { ctx with grants, now }).outcome.Permits ↔ Settleable sys action ctx := by
  obtain ⟨-, -, hhook, hmanaged⟩ := of_outcome_eq_ask hask
  rw [DecisionOutcome.permits_iff, restriction_of_granted hask hg hx, ← Restriction.le_allow_iff,
    sup_le_iff, Restriction.le_allow_iff, Restriction.le_allow_iff,
    hookRestriction_eq_allow_iff hhook, managedRestriction_eq_allow_iff hmanaged]
  exact Iff.rfl

/-- What was asked about and is granted does not pass through: the verdict is the grant's. -/
theorem outcome_ne_passthrough :
    (evaluate sys action { ctx with grants, now }).outcome ≠ .passthrough := by
  intro hpass
  have h : (evaluate sys action { ctx with grants, now }).outcome.restriction = .allow := by
    rw [hpass]
    rfl
  obtain ⟨hc, -, -, -⟩ := of_outcome_eq_ask hask
  obtain ⟨hh, hm⟩ : hookRestriction ctx.hookOutcome = .allow ∧
      ctx.managedPolicy.restriction action ctx.homeDir (actionDigest sys action) = .allow := by
    rw [restriction_of_granted hask hg hx, ← Restriction.le_allow_iff, sup_le_iff] at h
    exact ⟨Restriction.le_allow_iff.mp h.1, Restriction.le_allow_iff.mp h.2⟩
  -- Neither the hook nor the ceiling asked, so the question was there when the grants were heard.
  have hquestion : (ruled (level sys action ctx) (opinions ctx.rules action ctx.homeDir
      (actionDigest sys action))).restriction = .ask := by
    rw [← DecisionOutcome.restriction_eq_ask_iff, restriction_evaluate hc, hh, hm,
      ← Restriction.bot_eq, sup_bot_eq, sup_bot_eq] at hask
    exact restriction_of_settled hask
  have heff : (stages sys action { ctx with grants, now }).verdict.effect = .allow := by
    rw [effect_stages, ← restriction_evaluate hc]
    exact h
  have hstage : (stages sys action { ctx with grants, now }).verdict.source.stage = .grant := by
    rw [stages_eq_beforeCeiling heff, beforeCeiling]
    dsimp only
    rw [verdict_hookStage hh]
    refine stage_grantStage (at_ruleStage _ (at_protectedStage at_profileStage)) ?_
      (granted_of_isExactFor hg hx)
    rw [effect_mergeRules]
    exact hquestion
  rw [outcome_of_canonical hc] at hpass
  split at hpass
  · next hp =>
    have hprofile := hp.2.2.2.2
    rw [hstage] at hprofile
    cases hprofile
  · rw [heff] at hpass
    cases hpass

theorem outcome_eq_allow_iff_settleable :
    (evaluate sys action { ctx with grants, now }).outcome = .allow ↔
      Settleable sys action ctx := by
  rw [← permits_iff_settleable hask hg hx, DecisionOutcome.Permits,
    or_iff_left (outcome_ne_passthrough hask hg hx)]

end Granted

end Approval

/-! ## The call after the approval -/

section Call

variable {α ι ρ γ ω ε σ : Type}

/-- The worker was called. Nothing but the worker throws. -/
def reachesWorker : Except ε (PipelineOutcome ω) → Bool
  | .error _ => true
  | .ok (.executed ..) => true
  | .ok _ => false

/-- The context after a yes: the approval is minted, and time has passed. -/
def approvedContext (ctx : PolicyContext) (id digest : String) (scope : GrantScope) (now later : ℤ)
    (grantedBy : String) : PolicyContext :=
  { ctx with
    grants := (GrantStore.add ⟨ctx.grants⟩ id digest scope now grantedBy).grants
    now := later }

variable {pipeline : ToolPipeline α ι ρ γ ω ε σ} {input : ExecuteInput α γ} {w : σ}

theorem actionDigest_evaluate (sys : Platform) (action : NormalizedAction) (ctx : PolicyContext) :
    (evaluate sys action ctx).actionDigest = actionDigest sys action := by
  unfold evaluate
  dsimp only
  split_ifs <;> rfl

/-- What needs an approval passed the checks, and policy asked about its action. -/
theorem of_execute_eq_needsApproval {digest description : String} {action : NormalizedAction}
    (h : (pipeline.execute input w).1 = .ok (.needsApproval digest description action)) :
    ∃ tool args, (∀ ctx : PolicyContext, pipeline.judge
        { input.toDecideInput with policyContext := ctx } = pipeline.consult tool args ctx) ∧
      action = tool.toAction args input.policyContext.workspaceRoot ∧
      digest = actionDigest pipeline.sys action ∧
      (evaluate pipeline.sys action input.policyContext).outcome = .ask := by
  unfold ToolPipeline.execute at h
  rcases hb : pipeline.byName input.toolName with - | tool
  · rw [judge_of_unknown hb] at h
    cases h
  · rcases hv : validateCall ((pipeline.registry input.toolName).getD tool.definition)
      input.rawArguments with failure | args
    · rw [judge_of_invalid hb hv] at h
      cases h
    · rw [judge_of_valid hb hv, ToolPipeline.consult] at h
      refine ⟨tool, args, fun ctx ↦ judge_of_valid hb hv, ?_⟩
      cases ho : (evaluate pipeline.sys (tool.toAction args input.policyContext.workspaceRoot)
        input.policyContext).outcome with
      | deny =>
        rw [ho] at h
        cases h
      | ask =>
        rw [ho] at h
        cases h
        exact ⟨rfl, actionDigest_evaluate _ _ _, ho⟩
      | allow =>
        rw [ho] at h
        dsimp only at h
        split at h <;> cases h
      | passthrough =>
        rw [ho] at h
        dsimp only at h
        split at h <;> cases h

/-- The worker is reached exactly if policy permits the action. -/
theorem reachesWorker_execute_iff {tool : BuiltinTool α ι ρ} {args : ι}
    (h : pipeline.judge input.toDecideInput = pipeline.consult tool args input.policyContext) :
    reachesWorker (pipeline.execute input w).1 = true ↔
      (evaluate pipeline.sys (tool.toAction args input.policyContext.workspaceRoot)
        input.policyContext).outcome.Permits := by
  unfold ToolPipeline.execute
  rw [h]
  dsimp only [ToolPipeline.consult]
  cases (evaluate pipeline.sys (tool.toAction args input.policyContext.workspaceRoot)
    input.policyContext).outcome with
  | deny => simp [reachesWorker, DecisionOutcome.Permits]
  | ask => simp [reachesWorker, DecisionOutcome.Permits]
  | allow =>
    dsimp only
    split <;> simp [reachesWorker, DecisionOutcome.Permits]
  | passthrough =>
    dsimp only
    split <;> simp [reachesWorker, DecisionOutcome.Permits]

/-- **What an approval settles.** Where policy asks about an action, a live grant for exactly this
action, added anywhere, makes it allow exactly if neither a hook nor a managed rule that matches has
a question of its own. So it is with a call that needs an approval: run again after a yes, it reaches
the worker exactly then. -/
theorem approval_settles_iff :
    (∀ (sys : Platform) (action : NormalizedAction) (ctx : PolicyContext) (grants : List Grant)
        (grant : Grant), (evaluate sys action ctx).outcome = .ask → ctx.grants ⊆ grants →
      grant ∈ grants → grant.scope = .once ∨ grant.scope = .session →
      grant.actionDigest = some (actionDigest sys action) → isGrantLive grant ctx.now = none →
      ((evaluate sys action { ctx with grants }).outcome = .allow ↔ Settleable sys action ctx)) ∧
    ∀ (pipeline : ToolPipeline α ι ρ γ ω ε σ) (input : ExecuteInput α γ) (w w' : σ)
        (digest description : String) (action : NormalizedAction) (id : String) (scope : GrantScope)
        (now later : ℤ) (grantedBy : String),
      (pipeline.execute input w).1 = .ok (.needsApproval digest description action) →
      (reachesWorker (pipeline.execute { input with
          policyContext := approvedContext input.policyContext id digest scope now later
            grantedBy } w').1 = true ↔
        Settleable pipeline.sys action input.policyContext) := by
  constructor
  · intro sys action ctx grants grant hask _ hg hs hd hl
    refine @outcome_eq_allow_iff_settleable _ _ _ hask _ ctx.now _ hg ⟨?_, hd, hl⟩
    rcases hs with hs | hs <;> rw [hs] <;> decide
  · intro pipeline input w w' digest description action id scope now later grantedBy h
    obtain ⟨tool, args, hjudge, rfl, rfl, hask⟩ := of_execute_eq_needsApproval h
    refine Iff.trans (reachesWorker_execute_iff ?_) (permits_iff_settleable hask
      (List.mem_append_right _ (List.mem_singleton_self _))
      (GrantStore.isExactFor_minted id _ scope now grantedBy later))
    exact hjudge _

end Call

/-! ### A yes, and a yes that is not enough -/

/-- An approval of the request. -/
def exampleGrant : Grant :=
  GrantStore.minted "grt-1" "0a04efb62d61fa84dfad3c6a427c5e3a79e920df08ae2408536e0f310c30ca3f"
    .once 900 "user"

/-- The profile asks about the request, and the approval settles it. -/
theorem approval_settles_iff_request :
    (evaluate examplePlatform exampleRequest
      { exampleContext with grants := [exampleGrant] }).outcome = .allow ↔
        Settleable examplePlatform exampleRequest exampleContext :=
  (@approval_settles_iff Unit Unit Unit Unit Unit Unit Unit).1 examplePlatform exampleRequest exampleContext [exampleGrant] exampleGrant
      (by decide) (List.nil_subset _) (List.mem_singleton_self _) (.inl rfl) rfl rfl

/-- A context whose ceiling asks for a confirmation of every request. -/
def confirmingContext : PolicyContext :=
  { exampleContext with
    managedPolicy := { noManagedRestrictions with
      rules := [⟨"managed.confirm", .ask, networkMatcher, "confirm first"⟩] } }

/-- The confirmation is given, and the question is put again. -/
theorem not_approval_settles_confirmingContext :
    ¬ ((evaluate examplePlatform exampleRequest confirmingContext).outcome = .ask →
      exampleGrant.actionDigest = some (actionDigest examplePlatform exampleRequest) →
      isGrantLive exampleGrant confirmingContext.now = none →
      (evaluate examplePlatform exampleRequest
        { confirmingContext with grants := [exampleGrant] }).outcome = .allow) := by
  intro h
  have hbefore : (evaluate examplePlatform exampleRequest confirmingContext).outcome = .ask := by
    decide
  have hafter : (evaluate examplePlatform exampleRequest
      { confirmingContext with grants := [exampleGrant] }).outcome = .ask := by decide
  have hallow := h hbefore rfl rfl
  rw [hafter] at hallow
  cases hallow

end QwenHarness.Tools
