import QwenHarness.Policy.Outcome

/-!
# What no rule, grant or hook changes

The formula for the outcome gives what holds for every list of rules and grants and whatever a hook
says: a managed rule binds, a rule of the repository only restricts, and a protected path needs a
grant for exactly the action at hand.
-/

namespace QwenHarness.Policy

/-! ## Requests to try things on -/

/-- A request to a host, with its digest. -/
def exampleRequest : NormalizedAction :=
  .network "GET" "https://example.com/" "example.com" 443 "https"

def examplePlatform : Platform where
  sha256 _ := "0a04efb62d61fa84dfad3c6a427c5e3a79e920df08ae2408536e0f310c30ca3f"
  nfc := id
  toLowerCase := id

def exampleContext : PolicyContext where
  profile := .ask
  managedPolicy := noManagedRestrictions
  rules := []
  grants := []
  workspaceRoot := "/work"
  homeDir := "/home/user"
  now := 1000
  actor := ⟨.model, "model", none⟩
  hookOutcome := none

/-- The matcher of every request. -/
def networkMatcher : ActionMatcher := { ActionMatcher.empty with kinds := some [.network] }

variable {sys : Platform} {action : NormalizedAction} {ctx : PolicyContext}

/-! ## The ceiling binds -/

/-- The ceiling is below every outcome. -/
theorem managed_le_outcome :
    ctx.managedPolicy.restriction action ctx.homeDir (actionDigest sys action) ≤
      (evaluate sys action ctx).outcome.restriction := by
  by_cases hc : checkCanonicalAction sys action = []
  · rw [restriction_evaluate hc]
    exact le_sup_right
  · rw [outcome_of_not_canonical hc]
    exact Restriction.le_deny _

/-- A rule of the ceiling that matches is below every outcome. -/
theorem managedRule_le_outcome {rule : ManagedRule} (hr : rule ∈ ctx.managedPolicy.rules)
    (hm : matchesAction rule.match action ctx.homeDir (actionDigest sys action) = true) :
    rule.effect.restriction ≤ (evaluate sys action ctx).outcome.restriction := by
  refine le_trans ?_ managed_le_outcome
  unfold ManagedPolicy.restriction
  split
  · exact Restriction.le_deny _
  · exact restriction_le_managedRestriction hr hm

/-- Two contexts that give every action the same answer, up to the ceiling. -/
theorem outcome_mono_managed {ctx' : PolicyContext} (h : ctx' = { ctx with
      managedPolicy := ctx'.managedPolicy })
    (hm : ctx.managedPolicy.restriction action ctx.homeDir (actionDigest sys action) ≤
      ctx'.managedPolicy.restriction action ctx.homeDir (actionDigest sys action)) :
    (evaluate sys action ctx).outcome.restriction ≤
      (evaluate sys action ctx').outcome.restriction := by
  by_cases hc : checkCanonicalAction sys action = []
  · rw [restriction_evaluate hc, restriction_evaluate hc]
    rw [h]
    exact sup_le_sup le_rfl hm
  · rw [outcome_of_not_canonical hc, outcome_of_not_canonical hc]

theorem ManagedPolicy.restriction_mono {m : ManagedPolicy} {rules : List ManagedRule}
    {homeDir digest : String} (h : m.rules ⊆ rules) :
    m.restriction action homeDir digest ≤
      ManagedPolicy.restriction action homeDir digest { m with rules } := by
  unfold ManagedPolicy.restriction
  split
  · exact le_rfl
  · exact managedRestriction_mono h

variable (sys action ctx)

/-- **The ceiling binds.** A managed rule that denies, or a network that is off, denies; a managed
rule that asks leaves no permission; and more managed rules never restrict less. -/
theorem managed_binds :
    ((∃ rule ∈ ctx.managedPolicy.rules, rule.effect = .deny ∧
          matchesAction rule.match action ctx.homeDir (actionDigest sys action) = true) ∨
        (action.kind = .network ∧ ctx.managedPolicy.networkAllowed = false) →
      (evaluate sys action ctx).outcome = .deny) ∧
    ((∃ rule ∈ ctx.managedPolicy.rules, rule.effect = .ask ∧
          matchesAction rule.match action ctx.homeDir (actionDigest sys action) = true) →
      (evaluate sys action ctx).outcome ≠ .allow ∧
        (evaluate sys action ctx).outcome ≠ .passthrough) ∧
    ∀ rules : List ManagedRule, ctx.managedPolicy.rules.Sublist rules →
      (evaluate sys action ctx).outcome.restriction ≤
        (evaluate sys action { ctx with
          managedPolicy := { ctx.managedPolicy with rules } }).outcome.restriction := by
  refine ⟨?_, ?_, ?_⟩
  · intro h
    rw [← DecisionOutcome.restriction_eq_deny_iff, ← Restriction.deny_le_iff]
    rcases h with ⟨rule, hr, he, hm⟩ | hoff
    · exact le_trans (by rw [he]; exact le_rfl) (managedRule_le_outcome hr hm)
    · refine le_trans ?_ managed_le_outcome
      rw [ManagedPolicy.restriction, if_pos hoff]
  · rintro ⟨rule, hr, he, hm⟩
    have hask : Restriction.ask ≤ (evaluate sys action ctx).outcome.restriction :=
      le_trans (by rw [he]; exact le_rfl) (managedRule_le_outcome hr hm)
    constructor <;> intro h <;> rw [h] at hask <;> exact absurd hask (by decide)
  · intro rules hsub
    exact outcome_mono_managed rfl (ManagedPolicy.restriction_mono hsub.subset)

/-- A managed rule that denies every request, and one that asks, on a request that the profile
allows. -/
theorem managed_binds_request :
    (evaluate examplePlatform exampleRequest
      { exampleContext with
        profile := .yolo
        managedPolicy := { noManagedRestrictions with
          rules := [⟨"m.deny", .deny, networkMatcher, "no network"⟩] } }).outcome = .deny ∧
    (evaluate examplePlatform exampleRequest
      { exampleContext with
        profile := .yolo
        managedPolicy := { noManagedRestrictions with
          rules := [⟨"m.ask", .ask, networkMatcher, "ask first"⟩] } }).outcome ≠ .allow ∧
    (evaluate examplePlatform exampleRequest exampleContext).outcome.restriction ≤
      (evaluate examplePlatform exampleRequest
        { exampleContext with
          managedPolicy := { noManagedRestrictions with
            rules := [⟨"m.ask", .ask, networkMatcher, "ask first"⟩] } }).outcome.restriction :=
  ⟨(managed_binds _ _ _).1 (.inl ⟨_, List.mem_singleton_self _, rfl, by decide⟩),
    ((managed_binds _ _ _).2.1 ⟨_, List.mem_singleton_self _, rfl, by decide⟩).1,
    (managed_binds examplePlatform exampleRequest exampleContext).2.2 _ (List.nil_sublist _)⟩

/-! ## The repository adds no authority -/

/-- More rules, none of them allowing anything, change what the rules say to nothing less, and to no
`allow`. -/
theorem opinions_of_restricting {rules rules' : List PolicyRule} (hsub : rules ⊆ rules')
    (hp : ∀ rule ∈ rules',
      rule ∈ rules ∨ rule.opinion = ⊥ ∨ (Restriction.ask : WithBot Restriction) ≤ rule.opinion)
    (homeDir digest : String) :
    opinions rules' action homeDir digest = opinions rules action homeDir digest ∨
      (opinions rules action homeDir digest ≤ opinions rules' action homeDir digest ∧
        Restriction.ask ≤ opinions rules' action homeDir digest) := by
  have hle := opinions_mono hsub action homeDir digest
  by_cases hask : (Restriction.ask : WithBot Restriction) ≤ opinions rules' action homeDir digest
  · exact .inr ⟨hle, hask⟩
  · refine .inl (le_antisymm (opinions_le fun rule hr hm ↦ ?_) hle)
    rcases hp rule hr with hr' | hbot | hge
    · exact opinion_le_opinions hr' hm
    · rw [hbot]
      exact bot_le
    · exact absurd (hge.trans (opinion_le_opinions hr hm)) hask

/-- **Repository content cannot add authority.** Rules of the repository, inserted anywhere, never
make the outcome less restrictive. -/
theorem project_rules_only_restrict (rules : List PolicyRule) (hsub : ctx.rules.Sublist rules)
    (hp : ∀ rule ∈ rules, rule ∈ ctx.rules ∨ rule.scope = .project) :
    (evaluate sys action ctx).outcome.restriction ≤
      (evaluate sys action { ctx with rules }).outcome.restriction := by
  by_cases hc : checkCanonicalAction sys action = []
  · rw [restriction_evaluate hc, restriction_evaluate hc]
    refine sup_le_sup (sup_le_sup ?_ le_rfl) le_rfl
    exact answer_mono_rules
      (opinions_of_restricting action hsub.subset
        (fun rule hr ↦ (hp rule hr).imp_right opinion_of_project) _ _)
      fun h ↦ granted_of_exactOnly h false
  · rw [outcome_of_not_canonical hc, outcome_of_not_canonical hc]

/-- A rule of the repository that allows every request leaves the question open. -/
theorem project_rules_only_restrict_request :
    (evaluate examplePlatform exampleRequest exampleContext).outcome.restriction ≤
      (evaluate examplePlatform exampleRequest
        { exampleContext with
          rules := [⟨"p.allow", .project, .allow, networkMatcher, "let it"⟩] }).outcome.restriction :=
  project_rules_only_restrict examplePlatform exampleRequest exampleContext _ (List.nil_sublist _)
    fun _ h ↦ .inr (by rw [List.mem_singleton.mp h])

/-! ## Protected paths need an exact grant -/

/-- The action is done by the git tool. -/
def usesGitTool : NormalizedAction → Bool
  | .gitRead .. => true
  | .gitWrite .. => true
  | _ => false

/-- The action is a request to the metadata endpoint, or one of its paths is protected against what
the action does there. -/
def TouchesProtected : Prop :=
  (∃ method url host port scheme, action = .network method url host port scheme ∧
      isMetadataHost sys host = true) ∨
    ∃ path ∈ actionPaths action,
      classifyPath path (if isWriteAction action then .write else .read) ctx.workspaceRoot
        ctx.homeDir ≠ []

variable {sys action ctx}

/-- The engine finds what the action touches, except for the git tool. -/
theorem protectedMatches_ne_nil_iff :
    protectedMatches sys action ctx ≠ [] ↔
      usesGitTool action = false ∧ TouchesProtected sys action ctx := by
  have hpaths : ∀ a : AccessKind, ((actionPaths action).flatMap fun path ↦
      classifyPath path a ctx.workspaceRoot ctx.homeDir) ≠ [] ↔
        ∃ path ∈ actionPaths action, classifyPath path a ctx.workspaceRoot ctx.homeDir ≠ [] := by
    intro a
    rw [ne_eq, List.flatMap_eq_nil_iff]
    simp only [not_forall, exists_prop]
  unfold TouchesProtected
  rw [← hpaths]
  cases action with
  | network method url host port scheme =>
    by_cases hm : isMetadataHost sys host = true
    · simp [protectedMatches, usesGitTool, actionPaths, hm]
    · simp [protectedMatches, usesGitTool, actionPaths, hm]
  | _ => simp [protectedMatches, usesGitTool, actionPaths]

/-- The engine finds nothing where the list lets every path go. -/
theorem protectedMatches_eq_nil (hkind : action.kind ≠ .network)
    (h : ∀ path ∈ actionPaths action, ∀ access workspaceRoot,
      classifyPath path access workspaceRoot ctx.homeDir = []) :
    protectedMatches sys action ctx = [] := by
  by_contra hfound
  rcases (protectedMatches_ne_nil_iff.mp hfound).2 with ⟨_, _, _, _, _, rfl, -⟩ | ⟨path, hpath, hne⟩
  · exact hkind rfl
  · exact hne (h path hpath _ _)

theorem level_of_touches (hg : usesGitTool action = false) (ht : TouchesProtected sys action ctx) :
    level sys action ctx = protectedLevel ctx.profile :=
  if_neg (protectedMatches_ne_nil_iff.mpr ⟨hg, ht⟩)

/-- A closed action is denied. -/
theorem outcome_of_closed (h : level sys action ctx = .closed) :
    (evaluate sys action ctx).outcome = .deny := by
  by_cases hc : checkCanonicalAction sys action = []
  · rw [← DecisionOutcome.restriction_eq_deny_iff, restriction_evaluate hc, h, answer_closed,
      ← Restriction.top_eq, top_sup_eq, top_sup_eq]
  · exact outcome_of_not_canonical hc

/-- What is permitted is permitted by the answer. -/
theorem answer_of_permits (h : (evaluate sys action ctx).outcome.Permits) :
    answer (level sys action ctx) (opinions ctx.rules action ctx.homeDir (actionDigest sys action))
      (granted sys action ctx) = .allow := by
  rw [DecisionOutcome.permits_iff] at h
  by_cases hc : checkCanonicalAction sys action = []
  · rw [restriction_evaluate hc, ← Restriction.le_allow_iff] at h
    exact Restriction.le_allow_iff.mp (le_sup_left.trans (le_sup_left.trans h))
  · rw [outcome_of_not_canonical hc] at h
    cases h

/-- Under `plan` a side effect is closed, touched or not. -/
theorem level_of_plan (hs : isSideEffect action = true) (hu : ctx.actor.kind ≠ .user)
    (hp : ctx.profile = .plan) : level sys action ctx = .closed := by
  unfold level
  split
  · have hside : ¬ (ctx.actor.kind = .user ∨ isSideEffect action = false) := by
      rintro (h | h)
      · exact hu h
      · exact absurd (hs.symm.trans h) (by decide)
    rw [profileLevel, if_neg hside, hp, agentLevel]
  · rw [hp]
    rfl

variable (sys action ctx)

/-- **A protected path needs an exact grant.** Short of `yolo`, what touches a protected path or the
metadata endpoint, and is not done by the git tool, is permitted by nothing but a live grant for
exactly this action, and under `plan` not even so. A side effect of anyone but the user is denied
under `plan`. -/
theorem protected_needs_exact_grant :
    (checkCanonicalAction sys action = [] → ctx.profile ≠ .yolo → usesGitTool action = false →
      TouchesProtected sys action ctx →
      (evaluate sys action ctx).outcome = .allow ∨
        (evaluate sys action ctx).outcome = .passthrough →
      ctx.profile ≠ .plan ∧ ∃ grant ∈ ctx.grants,
        (grant.scope = .once ∨ grant.scope = .session) ∧
          grant.actionDigest = some (actionDigest sys action) ∧
          isGrantLive grant ctx.now = none) ∧
    (isSideEffect action = true → ctx.actor.kind ≠ .user → ctx.profile = .plan →
      (evaluate sys action ctx).outcome = .deny) := by
  refine ⟨?_, fun hs hu hp ↦ outcome_of_closed (level_of_plan hs hu hp)⟩
  intro _ hy hg ht hpermits
  have hlevel := level_of_touches hg ht
  have hans := answer_of_permits hpermits
  have hplan : ctx.profile ≠ .plan := by
    intro hp
    rw [hlevel, hp, protectedLevel, answer_closed] at hans
    cases hans
  have hguarded : level sys action ctx = .guarded := by
    rw [hlevel]
    cases hp : ctx.profile with
    | plan => exact absurd hp hplan
    | yolo => exact absurd hp hy
    | ask => rfl
    | autoAcceptEdits => rfl
  rw [hguarded] at hans
  obtain ⟨grant, hgrant, hset⟩ := granted_eq_true_iff.mp (granted_of_answer_guarded hans)
  obtain ⟨hscope, hdigest, hlive⟩ := settles_exactOnly_iff.mp hset
  refine ⟨hplan, grant, hgrant, ?_, hdigest, hlive⟩
  cases hs : grant.scope with
  | once => exact .inl rfl
  | session => exact .inr rfl
  | rule => exact absurd hs hscope

/-- A request to the metadata endpoint, with an approval of it. -/
def metadataRequest : NormalizedAction :=
  .network "GET" "http://169.254.169.254/" "169.254.169.254" 80 "http"

def metadataPlatform : Platform where
  sha256 _ := "a9eea4683345262bc7125fe67ccab51047aff85fb9d8aa6ed85902aca4d94c41"
  nfc := id
  toLowerCase := id

def metadataContext : PolicyContext :=
  { exampleContext with
    grants := [⟨"g", .once,
      some "a9eea4683345262bc7125fe67ccab51047aff85fb9d8aa6ed85902aca4d94c41", none, 900, none, none,
      none, "user", "approved"⟩] }

theorem protected_needs_exact_grant_metadata :
    (metadataContext.profile ≠ .plan ∧ ∃ grant ∈ metadataContext.grants,
      (grant.scope = .once ∨ grant.scope = .session) ∧
        grant.actionDigest = some (actionDigest metadataPlatform metadataRequest) ∧
        isGrantLive grant metadataContext.now = none) ∧
    (evaluate metadataPlatform metadataRequest
      { metadataContext with profile := .plan }).outcome = .deny :=
  ⟨(protected_needs_exact_grant metadataPlatform metadataRequest metadataContext).1
      (by decide) (by decide) rfl
      (.inl ⟨_, _, _, _, _, rfl, by decide⟩) (.inl (by decide)),
    (protected_needs_exact_grant metadataPlatform metadataRequest
      { metadataContext with profile := .plan }).2 rfl (by decide) rfl⟩

/-- The status of a repository in `/etc`. -/
def etcStatus : NormalizedAction := .gitRead "/etc" .status

def etcPlatform : Platform where
  sha256 _ := "7c6818dca467e4cb8221d3866f51e749e1bac6c9c7a8aeae24ff3c3f9417901b"
  nfc := id
  toLowerCase := id

/-- The git tool reads a repository at a protected path without any grant. -/
theorem not_protected_needs_exact_grant_etcStatus :
    ¬ (checkCanonicalAction etcPlatform etcStatus = [] → exampleContext.profile ≠ .yolo →
      TouchesProtected etcPlatform etcStatus exampleContext →
      (evaluate etcPlatform etcStatus exampleContext).outcome = .allow ∨
        (evaluate etcPlatform etcStatus exampleContext).outcome = .passthrough →
      exampleContext.profile ≠ .plan ∧ ∃ grant ∈ exampleContext.grants,
        (grant.scope = .once ∨ grant.scope = .session) ∧
          grant.actionDigest = some (actionDigest etcPlatform etcStatus) ∧
          isGrantLive grant exampleContext.now = none) := by
  intro h
  have hout : (evaluate etcPlatform etcStatus exampleContext).outcome = .allow := by decide
  have htouch : TouchesProtected etcPlatform etcStatus exampleContext :=
    .inr ⟨"/etc", List.mem_singleton_self _, by decide +kernel⟩
  obtain ⟨-, grant, hgrant, -⟩ := h (by decide) (by decide) htouch (.inl hout)
  exact absurd hgrant List.not_mem_nil

end QwenHarness.Policy
