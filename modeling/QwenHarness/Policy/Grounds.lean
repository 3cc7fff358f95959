import QwenHarness.Policy.Combine
import QwenHarness.Policy.RuleGrants

/-!
# What an allow rests on

An `allow` of the engine names its source. Where the source is a rule, it is the rule the merge
chose, it allows, and its matcher matches the action; where it is a grant, it is the first usable
grant about the action. A matcher with globs asks for one path of the action under one glob, so all
the paths of an action are under its globs only if there is no second path, which a patch may have.
-/

namespace QwenHarness.Policy

variable {sys : Platform} {action : NormalizedAction} {ctx : PolicyContext}

/-! ## The rule and the grant -/

/-- The merge chooses among the rules that match. -/
theorem mem_of_foldl_challenge {ms : List RuleMatch} {start : Option (RuleMatch × Restriction)}
    {winner : RuleMatch × Restriction} (h : ms.foldl RuleMatch.challenge start = some winner) :
    start = some winner ∨ winner.1 ∈ ms ∧ winner.1.effect.restriction = some winner.2 := by
  induction ms generalizing start with
  | nil => exact .inl h
  | cons m ms ih =>
    rcases ih h with h | ⟨hmem, heff⟩
    · rw [RuleMatch.challenge] at h
      cases hm : m.effect.restriction with
      | none =>
        rw [hm] at h
        exact .inl h
      | some candidate =>
        rw [hm] at h
        have hnew : some (m, candidate) = some winner →
            winner.1 ∈ m :: ms ∧ winner.1.effect.restriction = some winner.2 := by
          rintro ⟨⟩
          exact ⟨List.mem_cons_self, hm⟩
        rcases start with - | ⟨w, current⟩
        · exact .inr (hnew h)
        · dsimp only at h
          split_ifs at h
          · exact .inr (hnew h)
          · exact .inl h
    · exact .inr ⟨List.mem_cons_of_mem _ hmem, heff⟩

/-- A rule the merge lets allow is one of the rules, allows, and matches. -/
theorem of_winner_allow {rules : List PolicyRule} {homeDir digest : String} {winner : RuleMatch}
    (h : (mergeRules rules action homeDir digest).winner = some (winner, .allow)) :
    winner.rule ∈ rules ∧ winner.rule.effect = .allow ∧
      matchesAction winner.rule.match action homeDir digest = true := by
  rcases mem_of_foldl_challenge h with h | ⟨hmem, heff⟩
  · cases h
  · obtain ⟨rule, hrule, rfl⟩ := List.mem_map.mp hmem
    obtain ⟨hrule, hmatch⟩ := List.mem_filter.mp hrule
    unfold PolicyRule.toMatch at heff ⊢
    split_ifs at heff ⊢ with hproj
    · cases heff
    · refine ⟨hrule, ?_, hmatch⟩
      cases he : rule.effect <;> rw [he] at heff <;> first | rfl | cases heff

theorem of_findGrant {homeDir digest : String} {exactOnly : Bool} {now : ℤ} {grants : List Grant}
    {grant : Grant}
    (h : (findGrant action homeDir digest exactOnly now grants).grant = some grant) :
    grant ∈ grants ∧ grant.Settles action homeDir digest exactOnly now := by
  induction grants with
  | nil => cases h
  | cons g grants ih =>
    rw [findGrant] at h
    by_cases ha : g.isAbout action homeDir digest = true
    · rw [if_pos ha] at h
      rcases hr : g.rejection exactOnly now with - | reason
      · rw [hr] at h
        obtain rfl := Option.some.inj h
        exact ⟨List.mem_cons_self, ha, hr⟩
      · rw [hr] at h
        exact (ih h).imp_left (List.mem_cons_of_mem _)
    · rw [if_neg ha] at h
      exact (ih h).imp_left (List.mem_cons_of_mem _)

/-! ## The source of an allow -/

/-- The verdict after the rules. -/
def beforeGrants (sys : Platform) (action : NormalizedAction) (ctx : PolicyContext) : Progress :=
  let v := profileStage action ctx
  ruleStage (mergeRules ctx.rules action ctx.homeDir (actionDigest sys action))
    (protectedStage ctx.profile (protectedMatches sys action ctx)
      ⟨v,
        [⟨.inputValidation, "canonical-action", none, "action is canonical"⟩,
          ⟨.profile, v.source.id, some v.effect.outcome, v.reason⟩], false⟩)

/-- The verdict after the rules and the grants. -/
def afterGrants (sys : Platform) (action : NormalizedAction) (ctx : PolicyContext) : Progress :=
  grantStage action ctx (actionDigest sys action) (beforeGrants sys action ctx)

/-- A hook that leaves an `allow` did not touch the verdict. -/
theorem verdict_hookStage {hookOutcome : Option DecisionOutcome} {p : Progress}
    (h : (hookStage hookOutcome p).verdict.effect = .allow) :
    (hookStage hookOutcome p).verdict = p.verdict := by
  have hrestrict {hook : Restriction} (h : (hookRestrict hook p).verdict.effect = .allow) :
      (hookRestrict hook p).verdict = p.verdict := by
    by_cases hlt : p.verdict.effect < hook
    · rw [hookRestrict, if_pos hlt] at h
      obtain rfl : hook = .allow := h
      exact absurd hlt (not_lt.mpr (Restriction.allow_le _))
    · rw [hookRestrict, if_neg hlt]
      rfl
  rcases hookOutcome with - | - | - | - | -
  · rfl
  · rfl
  · exact hrestrict h
  · exact hrestrict h
  · rfl

theorem of_outcome_allow (h : (evaluate sys action ctx).outcome = .allow) :
    (afterGrants sys action ctx).verdict.effect = .allow ∧
      (evaluate sys action ctx).source = (afterGrants sys action ctx).verdict.source := by
  by_cases hc : checkCanonicalAction sys action = []
  · have hpass : ¬passesThrough ctx.actor (stages sys action ctx) := by
      intro hp
      rw [outcome_of_canonical hc, if_pos hp] at h
      cases h
    have heff : (stages sys action ctx).verdict.effect = .allow := by
      rw [outcome_of_canonical hc, if_neg hpass] at h
      rw [← Restriction.restriction_outcome (stages sys action ctx).verdict.effect, h]
      rfl
    have hsource : (evaluate sys action ctx).source = (stages sys action ctx).verdict.source := by
      rw [evaluate, if_neg (not_not_intro hc)]
      exact congrArg PolicyDecision.source (if_neg hpass)
    have hbefore := stages_eq_beforeCeiling heff
    rw [hbefore] at heff hsource
    have hhook := verdict_hookStage heff
    have hverdict : (beforeCeiling sys action ctx).verdict =
        (afterGrants sys action ctx).verdict := hhook
    exact ⟨hverdict ▸ heff, hsource.trans (congrArg Verdict.source hverdict)⟩
  · rw [outcome_of_not_canonical hc] at h
    cases h

/-- A grant turned the verdict, or it is still the one of the stages before. -/
theorem of_grantStage {digest : String} {p : Progress} :
    (grantStage action ctx digest p).verdict = p.verdict ∨
      ∃ grant, (findGrant action ctx.homeDir digest p.verdict.exactGrantOnly ctx.now
          ctx.grants).grant = some grant ∧
        (grantStage action ctx digest p).verdict.source = ⟨.grant, grant.id⟩ := by
  unfold grantStage
  by_cases hask : p.verdict.effect = .ask
  · rw [if_pos hask]
    rcases hfound : (findGrant action ctx.homeDir digest p.verdict.exactGrantOnly ctx.now
      ctx.grants).grant with - | grant
    · simp only [hfound]
      exact .inl trivial
    · simp only [hfound]
      exact .inr ⟨grant, rfl, rfl⟩
  · rw [if_neg hask]
    left
    split
    · rfl
    · rfl

/-- The verdict a rule left at `allow` or at a question is a rule's own, or one of before. -/
theorem of_ruleStage {merged : RuleMerge} {p : Progress} :
    (ruleStage merged p).verdict = p.verdict ∨
      ∃ winner effect, merged.winner = some (winner, effect) ∧
        (ruleStage merged p).verdict.effect = effect ∧
        (ruleStage merged p).verdict.source = ⟨.rule, winner.rule.id⟩ := by
  unfold ruleStage
  rcases merged.winner with - | ⟨winner, effect⟩
  · exact .inl rfl
  · dsimp only
    by_cases htight : p.verdict.effect < effect
    · rw [if_pos htight]
      exact .inr ⟨winner, effect, rfl, rfl, rfl⟩
    rw [if_neg htight]
    by_cases hsealed : p.verdict.isSealed = true ∨ p.verdict.exactGrantOnly = true
    · rw [if_pos hsealed]
      exact .inl rfl
    rw [if_neg hsealed]
    by_cases hloose : effect = .allow ∧ p.verdict.effect = .ask
    · rw [if_pos hloose]
      exact .inr ⟨winner, effect, rfl, hloose.1.symm, rfl⟩
    · rw [if_neg hloose]
      exact .inl rfl

theorem stage_profileStage : (profileStage action ctx).source.stage = .profile := by
  unfold profileStage
  split_ifs
  · rfl
  · rfl
  · cases ctx.profile with
    | autoAcceptEdits =>
      cases autoAcceptEditsAllows action ctx <;> rfl
    | _ => rfl

theorem stage_protectedStage {profile : PermissionProfile} {found : List ProtectedMatch}
    {v : Verdict} {steps : List DecisionStep} {forced : Bool} (h : v.source.stage = .profile) :
    (protectedStage profile found ⟨v, steps, forced⟩).verdict.source.stage = .profile ∨
      (protectedStage profile found ⟨v, steps, forced⟩).verdict.source.stage = .protectedPath := by
  unfold protectedStage
  rcases found with - | ⟨first, found⟩
  · exact .inl h
  · dsimp only
    split_ifs
    · exact .inr (by cases profile <;> rfl)
    · exact .inl h

/-- Before the grants the source is the profile, a protected path, or the rule that decided. -/
theorem of_beforeGrants : (beforeGrants sys action ctx).verdict.source.stage ≠ .grant ∧
    ((beforeGrants sys action ctx).verdict.source.stage = .rule →
      ∃ winner effect,
        (mergeRules ctx.rules action ctx.homeDir (actionDigest sys action)).winner =
          some (winner, effect) ∧
        (beforeGrants sys action ctx).verdict.effect = effect ∧
        (beforeGrants sys action ctx).verdict.source = ⟨.rule, winner.rule.id⟩) := by
  unfold beforeGrants
  rcases of_ruleStage with h | h
  · rw [h]
    rcases stage_protectedStage stage_profileStage with hp | hp <;> rw [hp] <;>
      exact ⟨DecisionStage.noConfusion, DecisionStage.noConfusion⟩
  · refine ⟨?_, fun _ ↦ h⟩
    obtain ⟨winner, effect, -, -, hsource⟩ := h
    rw [hsource]
    exact DecisionStage.noConfusion

/-- **The source of an allow.** A rule that is named as the source is the one the merge chose, and a
grant that is named is the first one that is about the action and can be used. -/
theorem source_of_allow (h : (evaluate sys action ctx).outcome = .allow) :
    ((evaluate sys action ctx).source.stage = .rule →
      ∃ winner : RuleMatch,
        (mergeRules ctx.rules action ctx.homeDir (actionDigest sys action)).winner =
          some (winner, .allow) ∧ (evaluate sys action ctx).source.id = winner.rule.id) ∧
    ((evaluate sys action ctx).source.stage = .grant →
      ∃ grant exactOnly, (findGrant action ctx.homeDir (actionDigest sys action) exactOnly ctx.now
          ctx.grants).grant = some grant ∧ (evaluate sys action ctx).source.id = grant.id) := by
  obtain ⟨heff, hsource⟩ := of_outcome_allow h
  rw [hsource]
  unfold afterGrants at heff ⊢
  rcases of_grantStage with hg | ⟨grant, hfound, hg⟩
  · rw [hg] at heff ⊢
    refine ⟨fun hrule ↦ ?_, fun hgrant ↦ absurd hgrant of_beforeGrants.1⟩
    obtain ⟨winner, effect, hwinner, heff', hsrc⟩ := of_beforeGrants.2 hrule
    obtain rfl : effect = .allow := heff'.symm.trans heff
    exact ⟨winner, hwinner, congrArg DecisionSource.id hsrc⟩
  · rw [hg]
    exact ⟨fun hrule ↦ DecisionStage.noConfusion hrule, fun _ ↦ ⟨grant, _, hfound, rfl⟩⟩

/-! ## Paths under the globs -/

/-- Some glob of the list matches the path. -/
def Under (globs : List String) (homeDir path : String) : Prop :=
  ∃ glob ∈ globs, matchGlob (expandHome glob homeDir) path = true

/-- If the matcher lists globs, a path of the action is under them, and if it is the only one, so
are all. -/
def Reaches (m : ActionMatcher) (action : NormalizedAction) (homeDir : String) : Prop :=
  ∀ globs, m.paths = some globs →
    (∃ path ∈ actionPaths action, Under globs homeDir path) ∧
      ((actionPaths action).length = 1 → ∀ path ∈ actionPaths action, Under globs homeDir path)

theorem reaches_of_matchesAction {m : ActionMatcher} {homeDir digest : String}
    (h : matchesAction m action homeDir digest = true) : Reaches m action homeDir := by
  intro globs hglobs
  simp only [matchesAction, hglobs, asks, Option.map_some, Option.getD_some, Bool.and_eq_true] at h
  obtain ⟨pattern, hpattern, hany⟩ := List.any_eq_true.mp h.1.1.1.1.1.2.2
  obtain ⟨path, hpath, hmatch⟩ := List.any_eq_true.mp hany
  obtain ⟨glob, hglob, rfl⟩ := List.mem_map.mp hpattern
  have hunder : Under globs homeDir path := ⟨glob, hglob, hmatch⟩
  refine ⟨⟨path, hpath, hunder⟩, fun hlen path' hpath' ↦ ?_⟩
  obtain ⟨only, honly⟩ := List.length_eq_one_iff.mp hlen
  rw [honly, List.mem_singleton] at hpath hpath'
  rw [hpath', ← hpath]
  exact hunder

/-- **The paths an allow covers.** Where an `allow` rests on a rule or a rule grant with globs, a
path of the action is under one of them, and every path is if the action has no other. -/
theorem allow_reaches (sys : Platform) (action : NormalizedAction) (ctx : PolicyContext)
    (h : (evaluate sys action ctx).outcome = .allow) :
    ((evaluate sys action ctx).source.stage = .rule →
      ∃ rule ∈ ctx.rules, (evaluate sys action ctx).source.id = rule.id ∧ rule.effect = .allow ∧
        matchesAction rule.match action ctx.homeDir (actionDigest sys action) = true ∧
        Reaches rule.match action ctx.homeDir) ∧
    ((evaluate sys action ctx).source.stage = .grant →
      ∃ grant ∈ ctx.grants, (evaluate sys action ctx).source.id = grant.id ∧
        grant.isAbout action ctx.homeDir (actionDigest sys action) = true ∧
        (grant.scope = .rule → ∃ m, grant.match = some m ∧
          matchesAction m action ctx.homeDir (actionDigest sys action) = true ∧
          Reaches m action ctx.homeDir)) := by
  obtain ⟨hrule, hgrant⟩ := source_of_allow h
  constructor
  · intro hstage
    obtain ⟨winner, hwinner, hid⟩ := hrule hstage
    obtain ⟨hmem, heff, hmatch⟩ := of_winner_allow hwinner
    exact ⟨winner.rule, hmem, hid, heff, hmatch, reaches_of_matchesAction hmatch⟩
  · intro hstage
    obtain ⟨grant, exactOnly, hfound, hid⟩ := hgrant hstage
    obtain ⟨hmem, hsettles⟩ := of_findGrant hfound
    refine ⟨grant, hmem, hid, hsettles.1, fun hscope ↦ ?_⟩
    have habout := hsettles.1
    rw [Grant.isAbout, hscope] at habout
    cases hm : grant.match with
    | none =>
      rw [hm] at habout
      cases habout
    | some m =>
      rw [hm] at habout
      exact ⟨m, rfl, habout, reaches_of_matchesAction habout⟩

/-! ### A patch with a second path -/

/-- A patch of a file under the globs and of one outside the workspace. -/
def straddlingPatch : NormalizedAction :=
  .patch ["/work/src/a.ts", "/opt/tool/b.ts"] false
    "2c26b46b68ffc68ff99b453c1d30413413422d706483bfa0f98a5e886266e7ae"

def sourceMatcher : ActionMatcher :=
  { ActionMatcher.empty with kinds := some [.patch], paths := some ["/work/src/**"] }

/-- Patches of the sources are allowed by a rule. -/
def ruledContext : PolicyContext :=
  { exampleContext with rules := [⟨"r", .user, .allow, sourceMatcher, "edit the sources"⟩] }

/-- Patches of the sources are granted. -/
def grantedContext : PolicyContext :=
  { exampleContext with
    grants := [⟨"g", .rule, none, some sourceMatcher, 900, none, none, none, "user", "edits"⟩] }

def sourcePatch : NormalizedAction :=
  .patch ["/work/src/a.ts"] false "2c26b46b68ffc68ff99b453c1d30413413422d706483bfa0f98a5e886266e7ae"

theorem spared_source (access : AccessKind) (workspaceRoot : String) :
    classifyPath "/work/src/a.ts" access workspaceRoot "/home/user" = [] :=
  classifyPath_eq_nil rfl rfl (by decide) access workspaceRoot

theorem spared_tool (access : AccessKind) (workspaceRoot : String) :
    classifyPath "/opt/tool/b.ts" access workspaceRoot "/home/user" = [] :=
  classifyPath_eq_nil rfl rfl (by decide) access workspaceRoot

theorem protectedMatches_straddlingPatch {ctx : PolicyContext} (hhome : ctx.homeDir = "/home/user") :
    protectedMatches examplePlatform straddlingPatch ctx = [] := by
  refine protectedMatches_eq_nil (by decide) ?_
  rw [hhome]
  exact List.forall_mem_cons.mpr ⟨spared_source, List.forall_mem_singleton.mpr spared_tool⟩

theorem allow_reaches_sourcePatch :
    ∃ rule ∈ ruledContext.rules, rule.effect = .allow ∧
      Reaches rule.match sourcePatch ruledContext.homeDir := by
  have hallow : (evaluate examplePlatform sourcePatch ruledContext).outcome = .allow ∧
      (evaluate examplePlatform sourcePatch ruledContext).source.stage = .rule := by
    have hnil : protectedMatches examplePlatform sourcePatch ruledContext = [] :=
      protectedMatches_eq_nil (by decide) (List.forall_mem_singleton.mpr spared_source)
    simp only [evaluate, stages, hnil]
    decide +kernel
  obtain ⟨rule, hmem, -, heff, -, hreach⟩ :=
    (allow_reaches examplePlatform sourcePatch ruledContext hallow.1).1 hallow.2
  exact ⟨rule, hmem, heff, hreach⟩

/-- One path under the globs carries another one along, for a rule and for a rule grant. -/
theorem not_all_under :
    ((evaluate examplePlatform straddlingPatch ruledContext).outcome = .allow ∧
        (evaluate examplePlatform straddlingPatch ruledContext).source = ⟨.rule, "r"⟩) ∧
      ((evaluate examplePlatform straddlingPatch grantedContext).outcome = .allow ∧
        (evaluate examplePlatform straddlingPatch grantedContext).source = ⟨.grant, "g"⟩) ∧
      ¬∀ path ∈ actionPaths straddlingPatch, Under ["/work/src/**"] "/home/user" path := by
  have hruled : protectedMatches examplePlatform straddlingPatch ruledContext = [] :=
    protectedMatches_straddlingPatch rfl
  have hgranted : protectedMatches examplePlatform straddlingPatch grantedContext = [] :=
    protectedMatches_straddlingPatch rfl
  simp only [evaluate, stages, hruled, hgranted]
  refine ⟨by decide +kernel, by decide +kernel, fun h ↦ ?_⟩
  obtain ⟨glob, hglob, hmatch⟩ := h "/opt/tool/b.ts" (by simp [straddlingPatch, actionPaths])
  rw [List.mem_singleton.mp hglob] at hmatch
  exact absurd hmatch (by decide +kernel)

end QwenHarness.Policy
