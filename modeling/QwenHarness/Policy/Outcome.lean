import QwenHarness.Policy.Engine

/-!
# What decides the outcome

The stages come down to one formula. Where the profile and the protected paths leave an action is
one of four levels: free, asked about, asked about with only an exact approval to settle it, or
closed. From the level, the merged rules and the grants follows an answer, and the outcome is the
join of that answer, of what the hook said and of what the managed ceiling asks for.

The answer grows with the level and with the rules, as long as more rules do not mean more `allow`s,
and shrinks with the grants. What nothing before the ceiling can do is read off the join.
-/

namespace QwenHarness.Policy

/-! ## Levels and answers -/

/-- Where an action stands before anyone was asked. -/
inductive Level where
  | free
  | prompt
  /-- Only an approval of exactly this action settles the question. -/
  | guarded
  | closed
deriving DecidableEq, Repr

namespace Level

def rank : Level → ℕ
  | free => 0
  | prompt => 1
  | guarded => 2
  | closed => 3

theorem rank_injective : Function.Injective rank := by
  intro a b h
  cases a <;> cases b <;> first | rfl | cases h

instance : LinearOrder Level := LinearOrder.lift' rank rank_injective

theorem le_closed (a : Level) : a ≤ closed := by cases a <;> decide

def restriction : Level → Restriction
  | free => .allow
  | prompt => .ask
  | guarded => .ask
  | closed => .deny

theorem restriction_mono : Monotone restriction := by
  intro a b h
  cases a <;> cases b <;> first | decide | exact absurd h (by decide)

/-- Whether only an exact approval counts. -/
def exactOnly : Level → Bool
  | guarded => true
  | _ => false

end Level

/-- Where the rules move a level. They close it, open a question that is not guarded, or put one
to what was free. -/
def ruled (level : Level) (rules : WithBot Restriction) : Level :=
  if rules = Restriction.deny then .closed
  else
    match level with
    | .free => if rules = Restriction.ask then .prompt else .free
    | .prompt => if rules = Restriction.allow then .free else .prompt
    | .guarded => .guarded
    | .closed => .closed

/-- The answer at a level. `granted exactOnly` says whether a grant settles the question. -/
def settled (level : Level) (granted : Bool → Bool) : Restriction :=
  if level.restriction = .ask ∧ granted level.exactOnly then .allow else level.restriction

/-- The answer at a level, once the rules and the grants were heard. -/
def answer (level : Level) (rules : WithBot Restriction) (granted : Bool → Bool) : Restriction :=
  settled (ruled level rules) granted

section Answers

variable {level level' : Level} {rules rules' : WithBot Restriction} {granted granted' : Bool → Bool}

/-- The cases of what rules may say. -/
theorem rules_cases (rules : WithBot Restriction) :
    rules = ⊥ ∨ rules = Restriction.allow ∨ rules = Restriction.ask ∨ rules = Restriction.deny := by
  induction rules using WithBot.recBotCoe with
  | bot => exact .inl rfl
  | coe a => cases a <;> simp

theorem ruled_mono_level (h : level ≤ level') : ruled level rules ≤ ruled level' rules := by
  rcases rules_cases rules with rfl | rfl | rfl | rfl <;>
    cases level <;> cases level' <;> first | decide | exact absurd h (by decide)

/-- More rules close more, where what more they say is no `allow`. -/
theorem ruled_mono_rules (h : rules' = rules ∨ (rules ≤ rules' ∧ Restriction.ask ≤ rules')) :
    ruled level rules ≤ ruled level rules' := by
  rcases h with rfl | ⟨h, hask⟩
  · exact le_rfl
  · rcases rules_cases rules with rfl | rfl | rfl | rfl <;>
      rcases rules_cases rules' with rfl | rfl | rfl | rfl <;>
        first | exact absurd hask (by decide) | exact absurd h (by decide) | (cases level <;> decide)

theorem ruled_guarded : ruled .guarded rules = .guarded ∨ ruled .guarded rules = .closed := by
  unfold ruled
  split
  · exact .inr rfl
  · exact .inl rfl

theorem ruled_bot : ruled level ⊥ = level := by cases level <;> rfl

theorem ruled_closed : ruled .closed rules = .closed := by
  unfold ruled
  split <;> rfl

theorem settled_mono (h : level ≤ level') (hg : granted true = true → granted false = true) :
    settled level granted ≤ settled level' granted := by
  unfold settled
  split
  · exact Restriction.allow_le _
  · next hn =>
    split
    · next hs =>
      cases level <;> cases level' <;>
        first | exact absurd h (by decide) | simp_all [Level.restriction, Level.exactOnly]
    · exact Level.restriction_mono h

theorem settled_anti (h : ∀ exactOnly, granted' exactOnly = true → granted exactOnly = true) :
    settled level granted ≤ settled level granted' := by
  unfold settled
  split
  · exact Restriction.allow_le _
  · next hn =>
    rw [if_neg (fun hs ↦ hn ⟨hs.1, h _ hs.2⟩)]

/-- **Fewer permissions, more restrictions.** The answer grows with the level, as long as a grant
that settles a guarded question settles it when it is not guarded. -/
theorem answer_mono_level (h : level ≤ level') (hg : granted true = true → granted false = true) :
    answer level rules granted ≤ answer level' rules granted :=
  settled_mono (ruled_mono_level h) hg

/-- The answer grows with the rules, where what more they say is no `allow`. -/
theorem answer_mono_rules (h : rules' = rules ∨ (rules ≤ rules' ∧ Restriction.ask ≤ rules'))
    (hg : granted true = true → granted false = true) :
    answer level rules granted ≤ answer level rules' granted :=
  settled_mono (ruled_mono_rules h) hg

/-- The answer shrinks with the grants. -/
theorem answer_anti_granted
    (h : ∀ exactOnly, granted' exactOnly = true → granted exactOnly = true) :
    answer level rules granted ≤ answer level rules granted' :=
  settled_anti h

theorem answer_closed : answer .closed rules granted = .deny := by
  rw [answer, ruled_closed]
  rfl

/-- A guarded action is only allowed by a grant for exactly this action. -/
theorem granted_of_answer_guarded (h : answer .guarded rules granted = .allow) :
    granted true = true := by
  rw [answer] at h
  rcases @ruled_guarded rules with hr | hr
  · rw [hr, settled] at h
    by_contra hg
    rw [if_neg (fun hs ↦ hg hs.2)] at h
    cases h
  · rw [hr] at h
    cases h

end Answers

/-! ## The stages, one at a time -/

namespace Progress

/-- The effect and the flags of the verdict are those of a level. What is closed may have any. -/
structure At (p : Progress) (level : Level) : Prop where
  effect : p.verdict.effect = level.restriction
  exact : level ≠ .closed → p.verdict.exactGrantOnly = level.exactOnly
  /-- A question that is not guarded is not sealed. -/
  unsealed : level = .prompt → p.verdict.isSealed = false

end Progress

section Stages

variable (sys : Platform) (action : NormalizedAction) (ctx : PolicyContext)

/-- Where the profile leaves an agent's side effect, `ordinary` if it is an edit that
`auto-accept-edits` accepts. -/
def agentLevel : PermissionProfile → (ordinary : Bool) → Level
  | .plan, _ => .closed
  | .ask, _ => .prompt
  | .autoAcceptEdits, ordinary => if ordinary then .free else .prompt
  | .yolo, _ => .free

/-- Where the profile leaves an action. -/
def profileLevel : Level :=
  if ctx.actor.kind = .user ∨ isSideEffect action = false then .free
  else agentLevel ctx.profile (decide (autoAcceptEditsAllows action ctx = none))

/-- Where the profile leaves a protected path. -/
def protectedLevel : PermissionProfile → Level
  | .plan => .closed
  | .ask => .guarded
  | .autoAcceptEdits => .guarded
  | .yolo => .free

/-- Where the profile and the protected paths leave an action. -/
def level : Level :=
  if protectedMatches sys action ctx = [] then profileLevel action ctx
  else protectedLevel ctx.profile

/-- What the hook asks for. -/
def hookRestriction : Option DecisionOutcome → Restriction
  | none => .allow
  | some outcome => outcome.restriction

/-- Whether a grant settles the question about the action. -/
def granted (exactOnly : Bool) : Bool :=
  decide (∃ grant ∈ ctx.grants,
    grant.Settles action ctx.homeDir (actionDigest sys action) exactOnly ctx.now)

variable {sys action ctx} {p : Progress} {lvl : Level}

theorem granted_eq_true_iff {exactOnly : Bool} :
    granted sys action ctx exactOnly = true ↔
      ∃ grant ∈ ctx.grants,
        grant.Settles action ctx.homeDir (actionDigest sys action) exactOnly ctx.now :=
  decide_eq_true_iff

theorem granted_of_exactOnly (h : granted sys action ctx true = true) (exactOnly : Bool) :
    granted sys action ctx exactOnly = true := by
  rw [granted_eq_true_iff] at h ⊢
  obtain ⟨grant, hg, hs⟩ := h
  exact ⟨grant, hg, hs.of_exactOnly exactOnly⟩

theorem at_profileStage {steps : List DecisionStep} :
    Progress.At ⟨profileStage action ctx, steps, false⟩ (profileLevel action ctx) := by
  unfold profileStage profileLevel
  by_cases hu : ctx.actor.kind = .user
  · simp only [hu, true_or, if_true]
    exact ⟨rfl, fun _ ↦ rfl, nofun⟩
  · by_cases hs : isSideEffect action = false
    · simp only [hu, hs, or_true, if_true, if_false]
      exact ⟨rfl, fun _ ↦ rfl, nofun⟩
    · simp only [hu, hs, if_false]
      cases ctx.profile with
      | plan => exact ⟨rfl, fun _ ↦ rfl, nofun⟩
      | ask => exact ⟨rfl, fun _ ↦ rfl, fun _ ↦ rfl⟩
      | yolo => exact ⟨rfl, fun _ ↦ rfl, nofun⟩
      | autoAcceptEdits =>
        cases autoAcceptEditsAllows action ctx with
        | none => exact ⟨rfl, fun _ ↦ rfl, nofun⟩
        | some why => exact ⟨rfl, fun _ ↦ rfl, fun _ ↦ rfl⟩

/-- A profile that permits more leaves no side effect at a higher level. -/
theorem agentLevel_anti {p q : PermissionProfile} (h : p ≤ q) (ordinary : Bool) :
    agentLevel q ordinary ≤ agentLevel p ordinary := by
  cases p <;> cases q <;> cases ordinary <;> first | decide | exact absurd h (by decide)

theorem protectedLevel_anti {p q : PermissionProfile} (h : p ≤ q) :
    protectedLevel q ≤ protectedLevel p := by
  cases p <;> cases q <;> first | decide | exact absurd h (by decide)

theorem profileLevel_le_prompt (h : ctx.profile ≠ .plan) : profileLevel action ctx ≤ .prompt := by
  unfold profileLevel
  split
  · decide
  · have hask : PermissionProfile.ask ≤ ctx.profile := by
      cases hp : ctx.profile <;> first | exact absurd hp h | decide
    exact agentLevel_anti hask _

/-- Short of `yolo`, the protected paths close at least as much as the profile. -/
theorem profileLevel_le_protectedLevel (h : ctx.profile ≠ .yolo) :
    profileLevel action ctx ≤ protectedLevel ctx.profile := by
  cases hp : ctx.profile with
  | plan => exact Level.le_closed _
  | yolo => exact absurd hp h
  | ask => exact (profileLevel_le_prompt (by rw [hp]; decide)).trans (by decide)
  | autoAcceptEdits => exact (profileLevel_le_prompt (by rw [hp]; decide)).trans (by decide)

theorem at_protectedStage (hp : p.At (profileLevel action ctx)) :
    (protectedStage ctx.profile (protectedMatches sys action ctx) p).At (level sys action ctx) := by
  unfold protectedStage level
  rcases hm : protectedMatches sys action ctx with - | ⟨first, found⟩
  · simpa using hp
  · rw [if_neg (by simp)]
    have hle : ctx.profile = .yolo ∨
        p.verdict.effect ≤ (protectedLevel ctx.profile).restriction := by
      by_cases hy : ctx.profile = .yolo
      · exact .inl hy
      · rw [hp.effect]
        exact .inr (Level.restriction_mono (profileLevel_le_protectedLevel hy))
    have heff : ∀ summary, (protectedVerdict ctx.profile first summary).effect =
        (protectedLevel ctx.profile).restriction := by
      intro summary
      cases ctx.profile <;> rfl
    refine ⟨?_, ?_, ?_⟩
    all_goals simp only [heff, hle, if_true]
    · cases ctx.profile <;> exact fun _ ↦ rfl
    · cases ctx.profile <;> exact nofun

/-! ### Rules and grants -/

theorem at_ruleStage (merged : RuleMerge) (hp : p.At lvl) :
    (ruleStage merged p).At (ruled lvl (saying merged.effect)) := by
  obtain ⟨⟨e, s, x, source, reason⟩, steps, forced⟩ := p
  obtain ⟨he, hx, hs⟩ := hp
  dsimp only at he hx hs
  subst he
  unfold ruleStage RuleMerge.effect
  rcases merged.winner with - | ⟨winner, effect⟩
  · rw [Option.map_none, saying_none, ruled_bot]
    exact ⟨rfl, hx, hs⟩
  · rw [Option.map_some, saying_some]
    cases lvl with
    | free =>
      obtain rfl := hx (by decide)
      cases effect with
      | ask => exact ⟨rfl, fun _ ↦ rfl, fun _ ↦ rfl⟩
      | _ => cases s <;> exact ⟨rfl, fun _ ↦ rfl, nofun⟩
    | prompt =>
      obtain rfl := hx (by decide)
      obtain rfl := hs rfl
      cases effect with
      | ask => exact ⟨rfl, fun _ ↦ rfl, fun _ ↦ rfl⟩
      | _ => exact ⟨rfl, fun _ ↦ rfl, nofun⟩
    | guarded =>
      obtain rfl := hx (by decide)
      cases effect with
      | deny => exact ⟨rfl, fun h ↦ absurd rfl h, nofun⟩
      | _ => cases s <;> exact ⟨rfl, fun _ ↦ rfl, nofun⟩
    | closed =>
      cases effect <;> cases s <;> cases x <;> exact ⟨rfl, fun h ↦ absurd rfl h, nofun⟩

theorem effect_grantStage (hp : p.At lvl) :
    (grantStage action ctx (actionDigest sys action) p).verdict.effect =
      settled lvl (granted sys action ctx) := by
  have hfound : (findGrant action ctx.homeDir (actionDigest sys action) lvl.exactOnly ctx.now
      ctx.grants).grant.isSome = granted sys action ctx lvl.exactOnly := by
    rw [Bool.eq_iff_iff, isSome_findGrant, granted_eq_true_iff]
  unfold grantStage settled
  rw [hp.effect]
  by_cases ha : lvl.restriction = .ask
  · rw [if_pos ha, hp.exact (by rintro rfl; cases ha), ← hfound]
    rcases hl : (findGrant action ctx.homeDir (actionDigest sys action) lvl.exactOnly ctx.now
      ctx.grants).grant with - | grant
    · simp [hl, hp.effect]
    · simp [hl, ha, Progress.turn]
  · rw [if_neg ha, if_neg (fun hs : _ ∧ _ ↦ ha hs.1)]
    split
    · exact hp.effect
    · exact hp.effect

/-! ### Hooks and the ceiling -/

theorem effect_hookStage (hookOutcome : Option DecisionOutcome) (p : Progress) :
    (hookStage hookOutcome p).verdict.effect =
      p.verdict.effect ⊔ hookRestriction hookOutcome := by
  have hle : ∀ hook, (hookRestrict hook p).verdict.effect = p.verdict.effect ⊔ hook := by
    intro hook
    unfold hookRestrict
    split
    · exact (sup_eq_right.mpr (le_of_lt ‹_›)).symm
    · exact (sup_eq_left.mpr (not_lt.mp ‹_›)).symm
  have hallow : p.verdict.effect = p.verdict.effect ⊔ .allow :=
    (sup_eq_left.mpr (Restriction.allow_le _)).symm
  rcases hookOutcome with - | - | - | - | -
  · exact hallow
  · exact hallow
  · exact hle .deny
  · exact hle .ask
  · exact hallow

theorem effect_managedRules (homeDir digest : String) (rules : List ManagedRule) (p : Progress) :
    (managedRules action homeDir digest rules p).verdict.effect =
      p.verdict.effect ⊔ managedRestriction action homeDir digest rules := by
  induction rules generalizing p with
  | nil => exact (sup_eq_left.mpr (Restriction.allow_le _)).symm
  | cons rule rules ih =>
    rw [managedRules]
    by_cases ha : rule.applies action homeDir digest = true
    · rw [if_neg (by rw [ha]; decide), managedRestriction_cons_of_applies ha]
      cases he : rule.effect with
      | deny =>
        rw [show ManagedEffect.deny.restriction = ⊤ from rfl, top_sup_eq, sup_top_eq]
        rfl
      | ask =>
        by_cases hv : p.verdict.effect = .allow
        · simp only [hv, if_true]
          rw [ih]
          exact (bot_sup_eq _).symm
        · simp only [hv, if_false]
          have hask : p.verdict.effect ⊔ ManagedEffect.ask.restriction = p.verdict.effect :=
            sup_eq_left.mpr (Restriction.ask_le hv)
          rw [ih, ← sup_assoc, hask]
    · rw [Bool.not_eq_true] at ha
      rw [if_pos ha, ih, managedRestriction_cons_of_not_applies ha]

theorem effect_networkStage (managed : ManagedPolicy) (homeDir digest : String) (p : Progress) :
    (managedRules action homeDir digest managed.rules
      (networkStage action managed p)).verdict.effect =
      p.verdict.effect ⊔ managed.restriction action homeDir digest := by
  rw [effect_managedRules, networkStage, ManagedPolicy.restriction]
  split
  · exact (sup_eq_left.mpr (Restriction.le_deny _)).trans
      (sup_eq_right.mpr (Restriction.le_deny _)).symm
  · rfl

/-! ## The formula -/

theorem effect_stages :
    (stages sys action ctx).verdict.effect =
      answer (level sys action ctx) (opinions ctx.rules action ctx.homeDir (actionDigest sys action))
          (granted sys action ctx) ⊔
        hookRestriction ctx.hookOutcome ⊔
        ctx.managedPolicy.restriction action ctx.homeDir (actionDigest sys action) := by
  rw [stages, effect_networkStage, effect_hookStage,
    effect_grantStage (at_ruleStage _ (at_protectedStage at_profileStage)), effect_mergeRules, answer]

theorem outcome_of_not_canonical (h : checkCanonicalAction sys action ≠ []) :
    (evaluate sys action ctx).outcome = .deny := by
  rw [evaluate, if_pos h]

/-- What the user does directly passes through, where the verdict is the profile's own. -/
def passesThrough (actor : Actor) (p : Progress) : Prop :=
  actor.kind = .user ∧ p.verdict.effect = .allow ∧ p.verdict.isSealed = false ∧
    p.managedForcedAsk = false ∧ p.verdict.source.stage = .profile

instance (actor : Actor) (p : Progress) : Decidable (passesThrough actor p) :=
  inferInstanceAs (Decidable (_ ∧ _ ∧ _ ∧ _ ∧ _))

theorem outcome_of_canonical (h : checkCanonicalAction sys action = []) :
    (evaluate sys action ctx).outcome =
      if passesThrough ctx.actor (stages sys action ctx) then .passthrough
      else (stages sys action ctx).verdict.effect.outcome := by
  rw [evaluate, if_neg (fun hn ↦ hn h)]
  exact apply_ite PolicyDecision.outcome _ _ _

/-- **The formula.** The outcome for a canonical action restricts as the answer does, the hook and
the ceiling together. -/
theorem restriction_evaluate (h : checkCanonicalAction sys action = []) :
    (evaluate sys action ctx).outcome.restriction =
      answer (level sys action ctx) (opinions ctx.rules action ctx.homeDir (actionDigest sys action))
          (granted sys action ctx) ⊔
        hookRestriction ctx.hookOutcome ⊔
        ctx.managedPolicy.restriction action ctx.homeDir (actionDigest sys action) := by
  rw [← effect_stages, outcome_of_canonical h]
  split
  · next hp => exact hp.2.1.symm
  · exact Restriction.restriction_outcome _

/-- Only what the user does passes through. -/
theorem outcome_of_not_user (hu : ctx.actor.kind ≠ .user) :
    (evaluate sys action ctx).outcome = (evaluate sys action ctx).outcome.restriction.outcome := by
  by_cases h : checkCanonicalAction sys action = []
  · rw [outcome_of_canonical h, if_neg (fun hp ↦ hu hp.1), Restriction.restriction_outcome]
  · rw [outcome_of_not_canonical h]
    rfl

/-- The outcome lets the action happen without a question. -/
def DecisionOutcome.Permits (o : DecisionOutcome) : Prop := o = .allow ∨ o = .passthrough

theorem DecisionOutcome.permits_iff {o : DecisionOutcome} : o.Permits ↔ o.restriction = .allow := by
  cases o <;> simp [Permits, restriction]

theorem DecisionOutcome.restriction_eq_deny_iff {o : DecisionOutcome} :
    o.restriction = .deny ↔ o = .deny := by
  cases o <;> simp [restriction]

theorem DecisionOutcome.restriction_eq_ask_iff {o : DecisionOutcome} :
    o.restriction = .ask ↔ o = .ask := by
  cases o <;> simp [restriction]

end Stages

end QwenHarness.Policy
