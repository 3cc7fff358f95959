import QwenHarness.Policy.Invariants

/-!
# Combining two ceilings

The bounds of two ceilings combine to the smaller, and combining is associative. The rules do not
always combine to both: of the rules under one id the first stays, and if it is about something
else, what the others deny is lost. The combination is as strict as both, and the order does not
matter, exactly if for every rule that matches the action a rule as strict stays.
-/

namespace QwenHarness.Policy

variable {sys : Platform} {action : NormalizedAction} {ctx : PolicyContext} {homeDir digest : String}

/-! ## Only the restriction of a ceiling shows -/

/-- A ceiling that leaves an `allow` did nothing. -/
theorem managedRules_eq_self {rules : List ManagedRule} {p : Progress}
    (h : (managedRules action homeDir digest rules p).verdict.effect = .allow) :
    managedRules action homeDir digest rules p = p := by
  induction rules generalizing p with
  | nil => rfl
  | cons rule rules ih =>
    rw [managedRules] at h ⊢
    split at h
    · next ha => rw [if_pos ha, ih h]
    · next ha =>
      rw [if_neg ha]
      cases he : rule.effect with
      | deny =>
        rw [he] at h
        cases h
      | ask =>
        rw [he] at h
        by_cases hv : p.verdict.effect = .allow
        · -- Once the rule has asked, the rest cannot take it back.
          simp only [hv, if_true] at h
          rw [effect_managedRules, ← Restriction.le_allow_iff] at h
          have hask : Restriction.ask ≤ Restriction.allow := le_sup_left.trans h
          exact absurd hask (by decide)
        · simp only [hv, if_false] at h ⊢
          exact ih h

/-- The verdict before the ceiling. -/
def beforeCeiling (sys : Platform) (action : NormalizedAction) (ctx : PolicyContext) : Progress :=
  let v := profileStage action ctx
  hookStage ctx.hookOutcome
    (grantStage action ctx (actionDigest sys action)
      (ruleStage (mergeRules ctx.rules action ctx.homeDir (actionDigest sys action))
        (protectedStage ctx.profile (protectedMatches sys action ctx)
          ⟨v,
            [⟨.inputValidation, "canonical-action", none, "action is canonical"⟩,
              ⟨.profile, v.source.id, some v.effect.outcome, v.reason⟩], false⟩)))

theorem stages_eq : stages sys action ctx =
    managedRules action ctx.homeDir (actionDigest sys action) ctx.managedPolicy.rules
      (networkStage action ctx.managedPolicy (beforeCeiling sys action ctx)) := rfl

theorem stages_eq_beforeCeiling (h : (stages sys action ctx).verdict.effect = .allow) :
    stages sys action ctx = beforeCeiling sys action ctx := by
  rw [stages_eq] at h ⊢
  rw [managedRules_eq_self h]
  rw [managedRules_eq_self h, networkStage] at h
  rw [networkStage]
  split
  · next hoff =>
    rw [if_pos hoff] at h
    cases h
  · rfl

/-- Ceilings with one restriction give one outcome. -/
theorem outcome_congr_managed {m m' : ManagedPolicy}
    (h : m.restriction action ctx.homeDir (actionDigest sys action) =
      m'.restriction action ctx.homeDir (actionDigest sys action)) :
    (evaluate sys action { ctx with managedPolicy := m }).outcome =
      (evaluate sys action { ctx with managedPolicy := m' }).outcome := by
  by_cases hc : checkCanonicalAction sys action = []
  · have heff : (stages sys action { ctx with managedPolicy := m }).verdict.effect =
        (stages sys action { ctx with managedPolicy := m' }).verdict.effect := by
      rw [effect_stages, effect_stages]
      exact congrArg _ h
    by_cases ha : (stages sys action { ctx with managedPolicy := m }).verdict.effect = .allow
    · have hst : stages sys action { ctx with managedPolicy := m } =
          stages sys action { ctx with managedPolicy := m' } :=
        (stages_eq_beforeCeiling ha).trans (stages_eq_beforeCeiling (heff ▸ ha)).symm
      rw [outcome_of_canonical hc, outcome_of_canonical hc, hst]
    · rw [outcome_of_canonical hc, outcome_of_canonical hc, if_neg (fun hp ↦ ha hp.2.1),
        if_neg (fun hp ↦ ha (heff.trans hp.2.1)), heff]
  · rw [outcome_of_not_canonical hc, outcome_of_not_canonical hc]

/-! ## A context that shows the ceiling -/

/-- A context in which nothing but the ceiling restricts. -/
def permissive (homeDir : String) (m : ManagedPolicy) : PolicyContext where
  profile := .yolo
  managedPolicy := m
  rules := []
  grants := []
  workspaceRoot := "/"
  homeDir := homeDir
  now := 0
  actor := ⟨.model, "model", none⟩
  hookOutcome := none

theorem level_permissive (m : ManagedPolicy) :
    level sys action (permissive homeDir m) = .free := by
  unfold level profileLevel
  split
  · split <;> rfl
  · rfl

theorem restriction_permissive (h : checkCanonicalAction sys action = []) (m : ManagedPolicy) :
    (evaluate sys action (permissive homeDir m)).outcome.restriction =
      m.restriction action homeDir (actionDigest sys action) := by
  rw [restriction_evaluate h, level_permissive]
  exact (congrArg (· ⊔ _) (bot_sup_eq _)).trans (bot_sup_eq _)

/-! ## What is kept of both -/

/-- For every rule that matches, in the lists put one after the other, a rule as strict matches that
is the first of its id. -/
def KeepsRestrictions (action : NormalizedAction) (homeDir digest : String)
    (rules : List ManagedRule) : Prop :=
  ∀ rule ∈ rules, rule.applies action homeDir digest = true →
    ∃ before kept after, rules = before ++ kept :: after ∧
      (∀ other ∈ before, other.id ≠ kept.id) ∧ kept.applies action homeDir digest = true ∧
        rule.effect.restriction ≤ kept.effect.restriction

/-- Some rule attains the join, if there is anything to attain. -/
theorem exists_managedRestriction {rules : List ManagedRule}
    (h : managedRestriction action homeDir digest rules ≠ .allow) :
    ∃ rule ∈ rules, rule.applies action homeDir digest = true ∧
      rule.effect.restriction = managedRestriction action homeDir digest rules := by
  induction rules with
  | nil => exact absurd managedRestriction_nil h
  | cons rule rules ih =>
    by_cases ha : rule.applies action homeDir digest = true
    · rw [managedRestriction_cons_of_applies ha] at h ⊢
      rcases le_total (managedRestriction action homeDir digest rules) rule.effect.restriction
        with hle | hle
      · exact ⟨rule, List.mem_cons_self, ha, (sup_eq_left.mpr hle).symm⟩
      · rw [sup_eq_right.mpr hle] at h ⊢
        obtain ⟨kept, hk, hka, heq⟩ := ih h
        exact ⟨kept, List.mem_cons_of_mem _ hk, hka, heq⟩
    · rw [Bool.not_eq_true] at ha
      rw [managedRestriction_cons_of_not_applies ha] at h ⊢
      obtain ⟨kept, hk, hka, heq⟩ := ih h
      exact ⟨kept, List.mem_cons_of_mem _ hk, hka, heq⟩

/-- Leaving out rules under an id that came before restricts as much exactly if every restriction is
kept. -/
theorem managedRestriction_firsts_iff {rules : List ManagedRule} :
    managedRestriction action homeDir digest rules ≤
        managedRestriction action homeDir digest (Keyed.firsts ManagedRule.id [] rules) ↔
      KeepsRestrictions action homeDir digest rules := by
  constructor
  · intro h rule hr hm
    have hle := (restriction_le_managedRestriction hr hm).trans h
    have hne : managedRestriction action homeDir digest (Keyed.firsts ManagedRule.id [] rules) ≠
        .allow := by
      intro ha
      rw [ha, Restriction.le_allow_iff] at hle
      cases he : rule.effect <;> rw [he] at hle <;> cases hle
    obtain ⟨kept, hk, hka, heq⟩ := exists_managedRestriction hne
    obtain ⟨-, before, after, hsplit, hfirst⟩ := Keyed.mem_firsts_iff.mp hk
    exact ⟨before, kept, after, hsplit, hfirst, hka, heq ▸ hle⟩
  · intro h
    refine managedRestriction_le fun rule hr hm ↦ ?_
    obtain ⟨before, kept, after, hsplit, hfirst, hka, hle⟩ := h rule hr hm
    refine hle.trans (restriction_le_managedRestriction (Keyed.mem_firsts_iff.mpr ?_) hka)
    exact ⟨List.not_mem_nil, before, after, hsplit, hfirst⟩

theorem managedRestriction_append (rules rules' : List ManagedRule) :
    managedRestriction action homeDir digest (rules ++ rules') =
      managedRestriction action homeDir digest rules ⊔
        managedRestriction action homeDir digest rules' := by
  refine le_antisymm (managedRestriction_le fun rule hr hm ↦ ?_) (sup_le ?_ ?_)
  · rcases List.mem_append.mp hr with hr | hr
    · exact (restriction_le_managedRestriction hr hm).trans le_sup_left
    · exact (restriction_le_managedRestriction hr hm).trans le_sup_right
  · exact managedRestriction_mono (List.subset_append_left _ _)
  · exact managedRestriction_mono (List.subset_append_right _ _)

/-! ## The combination -/

section Combination

variable {a b : ManagedPolicy}

/-- The action needs the network and one of the ceilings turns it off. -/
def NetworkOff (action : NormalizedAction) (a b : ManagedPolicy) : Prop :=
  action.kind = .network ∧ (a.networkAllowed = false ∨ b.networkAllowed = false)

theorem restriction_intersectManaged_of_off (h : NetworkOff action a b) :
    (intersectManaged a b).restriction action homeDir digest = .deny := by
  refine if_pos ⟨h.1, ?_⟩
  rcases h.2 with h | h <;> simp [intersectManaged, h]

theorem restriction_intersectManaged (h : ¬ NetworkOff action a b) :
    a.restriction action homeDir digest = managedRestriction action homeDir digest a.rules ∧
      b.restriction action homeDir digest = managedRestriction action homeDir digest b.rules ∧
      (intersectManaged a b).restriction action homeDir digest =
        managedRestriction action homeDir digest
          (Keyed.firsts ManagedRule.id [] (a.rules ++ b.rules)) := by
  refine ⟨if_neg fun hn ↦ h ⟨hn.1, .inl hn.2⟩, if_neg fun hn ↦ h ⟨hn.1, .inr hn.2⟩, if_neg ?_⟩
  rintro ⟨hk, hn⟩
  rw [intersectManaged, Bool.and_eq_false_iff] at hn
  exact h ⟨hk, hn⟩

theorem networkOff_comm : NetworkOff action a b ↔ NetworkOff action b a :=
  and_congr_right fun _ ↦ or_comm

/-- Where the network is not off, the combination restricts as both do, in either order, exactly if
it keeps the restrictions in either order. -/
theorem restriction_intersectManaged_iff (h : ¬ NetworkOff action a b) :
    (a.restriction action homeDir digest ≤ (intersectManaged a b).restriction action homeDir digest ∧
        b.restriction action homeDir digest ≤
          (intersectManaged a b).restriction action homeDir digest ∧
        (intersectManaged a b).restriction action homeDir digest =
          (intersectManaged b a).restriction action homeDir digest) ↔
      KeepsRestrictions action homeDir digest (a.rules ++ b.rules) ∧
        KeepsRestrictions action homeDir digest (b.rules ++ a.rules) := by
  have hba := fun hn ↦ h (networkOff_comm.mp hn)
  obtain ⟨ha, hb, hab⟩ := @restriction_intersectManaged _ homeDir digest _ _ h
  obtain ⟨-, -, hba⟩ := @restriction_intersectManaged _ homeDir digest _ _ hba
  rw [ha, hb, hab, hba, ← managedRestriction_firsts_iff, ← managedRestriction_firsts_iff,
    managedRestriction_append, managedRestriction_append, sup_le_iff, sup_le_iff]
  have hle : ∀ rules : List ManagedRule,
      managedRestriction action homeDir digest (Keyed.firsts ManagedRule.id [] rules) ≤
        managedRestriction action homeDir digest rules :=
    fun rules ↦ managedRestriction_mono Keyed.firsts_subset
  constructor
  · rintro ⟨h₁, h₂, heq⟩
    rw [← heq]
    exact ⟨⟨h₁, h₂⟩, h₂, h₁⟩
  · rintro ⟨⟨h₁, h₂⟩, h₃, h₄⟩
    refine ⟨h₁, h₂, le_antisymm ((hle _).trans ?_) ((hle _).trans ?_)⟩
    · rw [managedRestriction_append]
      exact sup_le h₄ h₃
    · rw [managedRestriction_append]
      exact sup_le h₂ h₁

/-- The outcome under a ceiling. -/
def outcomeUnder (sys : Platform) (action : NormalizedAction) (ctx : PolicyContext)
    (m : ManagedPolicy) : DecisionOutcome :=
  (evaluate sys action { ctx with managedPolicy := m }).outcome

theorem outcomeUnder_mono {m m' : ManagedPolicy}
    (h : m.restriction action ctx.homeDir (actionDigest sys action) ≤
      m'.restriction action ctx.homeDir (actionDigest sys action)) :
    (outcomeUnder sys action ctx m).restriction ≤ (outcomeUnder sys action ctx m').restriction :=
  outcome_mono_managed rfl h

variable (sys a b action homeDir)

/-- **When two ceilings combine.** The combination is at least as strict as both, and commutes, in
every context with a home directory, exactly if the action is not canonical, or needs the network
where one of them turns it off, or every restriction is kept in either order. It is associative in
any case. -/
theorem intersectManaged_combines_iff :
    (∀ ctx : PolicyContext, ctx.homeDir = homeDir →
      (outcomeUnder sys action ctx a).restriction ≤
          (outcomeUnder sys action ctx (intersectManaged a b)).restriction ∧
        (outcomeUnder sys action ctx b).restriction ≤
          (outcomeUnder sys action ctx (intersectManaged a b)).restriction ∧
        outcomeUnder sys action ctx (intersectManaged a b) =
          outcomeUnder sys action ctx (intersectManaged b a) ∧
        ∀ c, outcomeUnder sys action ctx (intersectManaged (intersectManaged a b) c) =
          outcomeUnder sys action ctx (intersectManaged a (intersectManaged b c))) ↔
      (checkCanonicalAction sys action = [] → ¬ NetworkOff action a b →
        KeepsRestrictions action homeDir (actionDigest sys action) (a.rules ++ b.rules) ∧
          KeepsRestrictions action homeDir (actionDigest sys action) (b.rules ++ a.rules)) := by
  constructor
  · intro h hc hoff
    obtain ⟨h₁, h₂, h₃, -⟩ := h (permissive homeDir a) rfl
    rw [← restriction_intersectManaged_iff hoff]
    have key : ∀ m, (outcomeUnder sys action (permissive homeDir a) m).restriction =
        m.restriction action homeDir (actionDigest sys action) :=
      fun m ↦ restriction_permissive hc m
    rw [key, key] at h₁ h₂
    exact ⟨h₁, h₂, by rw [← key, ← key, h₃]⟩
  · rintro h ctx rfl
    have hassoc : ∀ c, outcomeUnder sys action ctx (intersectManaged (intersectManaged a b) c) =
        outcomeUnder sys action ctx (intersectManaged a (intersectManaged b c)) :=
      fun c ↦ by rw [intersectManaged_assoc]
    by_cases hc : checkCanonicalAction sys action = []
    · by_cases hoff : NetworkOff action a b
      · have hab := @restriction_intersectManaged_of_off _ ctx.homeDir (actionDigest sys action)
          _ _ hoff
        have hba := @restriction_intersectManaged_of_off _ ctx.homeDir (actionDigest sys action)
          _ _ (networkOff_comm.mp hoff)
        exact ⟨outcomeUnder_mono (hab ▸ Restriction.le_deny _),
          outcomeUnder_mono (hab ▸ Restriction.le_deny _),
          outcome_congr_managed (hab.trans hba.symm), hassoc⟩
      · obtain ⟨h₁, h₂, h₃⟩ := (restriction_intersectManaged_iff hoff).mpr (h hc hoff)
        exact ⟨outcomeUnder_mono h₁, outcomeUnder_mono h₂, outcome_congr_managed h₃, hassoc⟩
    · have hdeny : ∀ m, outcomeUnder sys action ctx m = .deny :=
        fun m ↦ outcome_of_not_canonical hc
      simp only [hdeny, le_refl, implies_true, and_self]

end Combination

/-! ### A restriction that is lost -/

/-- A ceiling that asks about one server. -/
def askingCeiling : ManagedPolicy :=
  { noManagedRestrictions with
    rules := [⟨"managed.egress", .ask, { ActionMatcher.empty with mcpServers := some ["web"] },
      "ask before the web server"⟩] }

/-- A later version of it, which denies every request instead. -/
def denyingCeiling : ManagedPolicy :=
  { noManagedRestrictions with
    version := 2
    rules := [⟨"managed.egress", .deny, networkMatcher, "no network"⟩] }

/-- The denial of the second ceiling is lost in the combination, because the first has a rule under
the same id. -/
theorem not_intersectManaged_combines :
    ¬ ∀ (a b : ManagedPolicy) (action : NormalizedAction) (ctx : PolicyContext),
      (outcomeUnder examplePlatform action ctx a).restriction ≤
          (outcomeUnder examplePlatform action ctx (intersectManaged a b)).restriction ∧
        (outcomeUnder examplePlatform action ctx b).restriction ≤
          (outcomeUnder examplePlatform action ctx (intersectManaged a b)).restriction ∧
        outcomeUnder examplePlatform action ctx (intersectManaged a b) =
          outcomeUnder examplePlatform action ctx (intersectManaged b a) := by
  intro h
  have hdeny : outcomeUnder examplePlatform exampleRequest
      { exampleContext with profile := .yolo } denyingCeiling = .deny := by decide
  have hallow : outcomeUnder examplePlatform exampleRequest
      { exampleContext with profile := .yolo } (intersectManaged askingCeiling denyingCeiling) =
        .allow := by decide
  have hle := (h askingCeiling denyingCeiling exampleRequest
    { exampleContext with profile := .yolo }).2.1
  rw [hdeny, hallow] at hle
  exact absurd hle (by decide)

end QwenHarness.Policy
