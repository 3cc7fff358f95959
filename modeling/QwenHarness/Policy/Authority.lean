import QwenHarness.Policy.Invariants

/-!
# Authority and its intersection

A child gets the intersection of what is requested, what its parent holds and the managed ceiling.
Every bound is the smaller one, the rules of the parent stay and more restrictions may come, and the
level of further children goes down.

Grants are kept by their id alone, in the version of the request. A request that gives the id of a
grant of the parent to a grant for something else is not stopped. Where every grant that is kept
settles nothing that no grant of the parent settles, no chain of requests widens authority.
-/

namespace QwenHarness.Policy

structure Authority where
  profile : PermissionProfile
  isolation : IsolationMode
  networkAllowed : Bool
  /-- Where the holder may work. -/
  workspaceRoots : List String
  rules : List PolicyRule
  grants : List Grant
  /-- How many further levels of children the holder may create. -/
  maxChildDepth : ℤ
deriving DecidableEq, Repr

/-- A rule that only takes away. -/
def restrictiveRule (rule : PolicyRule) : Bool := decide (rule.effect = .deny ∨ rule.effect = .ask)

/-- The ids of the rules that allow something. -/
def allowIds (rules : List PolicyRule) : List String :=
  (rules.filter fun r ↦ decide (r.effect = .allow)).map PolicyRule.id

def intersect (requested parentCeiling : Authority) (managed : ManagedPolicy) : Authority where
  profile :=
    leastProfile (leastProfile requested.profile parentCeiling.profile) managed.maxProfile
  isolation :=
    strictestIsolation (strictestIsolation requested.isolation parentCeiling.isolation)
      managed.maxIsolation
  networkAllowed :=
    requested.networkAllowed && parentCeiling.networkAllowed && managed.networkAllowed
  workspaceRoots :=
    (if requested.workspaceRoots = [] then parentCeiling.workspaceRoots
      else requested.workspaceRoots).filter fun root ↦
        parentCeiling.workspaceRoots.any fun parentRoot ↦ isWithin parentRoot root
  rules :=
    parentCeiling.rules ++ requested.rules.filter fun rule ↦
      restrictiveRule rule ||
        (decide (rule.effect = .allow ∧ rule.id ∈ allowIds parentCeiling.rules) &&
          !parentCeiling.rules.any fun p ↦ decide (p.id = rule.id))
  grants :=
    requested.grants.filter fun grant ↦ decide (grant.id ∈ parentCeiling.grants.map Grant.id)
  maxChildDepth :=
    max 0 (min requested.maxChildDepth
      (min (parentCeiling.maxChildDepth - 1) managed.maxChildDepth))

structure AuthorityViolation where
  field : String
  detail : String
deriving DecidableEq, Repr

/-- Every way in which the child holds more than the parent, as far as ids and bounds show it. -/
def authorityViolations (child parent : Authority) : List AuthorityViolation :=
  (if parent.profile.rank < child.profile.rank then
    [⟨"profile", child.profile.name ++ " is more permissive than " ++ parent.profile.name⟩]
  else []) ++
  (if parent.isolation.rank < child.isolation.rank then
    [⟨"isolation", child.isolation.name ++ " is weaker than " ++ parent.isolation.name⟩]
  else []) ++
  (if child.networkAllowed ∧ parent.networkAllowed = false then
    [⟨"networkAllowed", "child has network, parent does not"⟩]
  else []) ++
  (child.workspaceRoots.filter fun root ↦
    !parent.workspaceRoots.any fun parentRoot ↦ isWithin parentRoot root).map
      (fun root ↦ ⟨"workspaceRoots", root ++ " is outside every parent root"⟩) ++
  (child.rules.filter fun rule ↦
    decide (rule.effect = .allow ∧ rule.id ∉ allowIds parent.rules)).map
      (fun rule ↦ ⟨"rules", "allow-rule " ++ rule.id ++ " is not held by the parent"⟩) ++
  (child.grants.filter fun grant ↦ decide (grant.id ∉ parent.grants.map Grant.id)).map
      (fun grant ↦ ⟨"grants", "grant " ++ grant.id ++ " is not held by the parent"⟩) ++
  if parent.maxChildDepth < child.maxChildDepth then
    [⟨"maxChildDepth", "child may recurse deeper than its parent"⟩]
  else []

def isAtMost (child parent : Authority) : Bool := decide (authorityViolations child parent = [])

/-! ## Bounds -/

section Bounds

variable (requested parentCeiling : Authority) (managed : ManagedPolicy)

theorem profile_intersect_le :
    (intersect requested parentCeiling managed).profile ≤ parentCeiling.profile := by
  unfold intersect
  rw [leastProfile_eq_min, leastProfile_eq_min]
  exact (min_le_left _ _).trans (min_le_right _ _)

theorem isolation_intersect_le :
    (intersect requested parentCeiling managed).isolation ≤ parentCeiling.isolation := by
  unfold intersect
  rw [strictestIsolation_eq_min, strictestIsolation_eq_min]
  exact (min_le_left _ _).trans (min_le_right _ _)

theorem networkAllowed_of_intersect
    (h : (intersect requested parentCeiling managed).networkAllowed = true) :
    parentCeiling.networkAllowed = true := by
  rw [intersect, Bool.and_eq_true, Bool.and_eq_true] at h
  exact h.1.2

theorem within_of_mem_intersect {root : String}
    (h : root ∈ (intersect requested parentCeiling managed).workspaceRoots) :
    ∃ parentRoot ∈ parentCeiling.workspaceRoots, isWithin parentRoot root = true :=
  List.any_eq_true.mp (List.mem_filter.mp h).2

theorem maxChildDepth_intersect_nonneg :
    0 ≤ (intersect requested parentCeiling managed).maxChildDepth := le_max_left _ _

theorem maxChildDepth_intersect_le (h : 0 ≤ parentCeiling.maxChildDepth) :
    (intersect requested parentCeiling managed).maxChildDepth ≤ parentCeiling.maxChildDepth := by
  refine max_le h ((min_le_right _ _).trans ((min_le_left _ _).trans ?_))
  omega

/-- A rule of the child is one of the parent, or only takes away. -/
theorem mem_rules_intersect {rule : PolicyRule}
    (h : rule ∈ (intersect requested parentCeiling managed).rules) :
    rule ∈ parentCeiling.rules ∨ restrictiveRule rule = true := by
  rcases List.mem_append.mp h with h | h
  · exact .inl h
  · refine .inr ?_
    obtain ⟨-, hkeep⟩ := List.mem_filter.mp h
    rw [Bool.or_eq_true, Bool.and_eq_true] at hkeep
    rcases hkeep with hr | ⟨hallow, hnew⟩
    · exact hr
    · -- An `allow` needs the id of a rule of the parent, and at the same time must not have it.
      obtain ⟨p, hp, hid⟩ := List.mem_map.mp (of_decide_eq_true hallow).2
      rw [Bool.not_eq_true', List.any_eq_false] at hnew
      exact absurd (decide_eq_true hid) (hnew p (List.mem_filter.mp hp).1)

end Bounds

/-! ## The check at the boundary -/

/-- What the check looks at: bounds, and ids. -/
structure AtMost (child parent : Authority) : Prop where
  profile : child.profile ≤ parent.profile
  isolation : child.isolation ≤ parent.isolation
  network : child.networkAllowed = true → parent.networkAllowed = true
  roots : ∀ root ∈ child.workspaceRoots,
    ∃ parentRoot ∈ parent.workspaceRoots, isWithin parentRoot root = true
  rules : ∀ rule ∈ child.rules, rule.effect = .allow → rule.id ∈ allowIds parent.rules
  grants : ∀ grant ∈ child.grants, grant.id ∈ parent.grants.map Grant.id
  depth : child.maxChildDepth ≤ parent.maxChildDepth

theorem isAtMost_iff {child parent : Authority} :
    isAtMost child parent = true ↔ AtMost child parent := by
  have hite : ∀ (c : Prop) [Decidable c] (v : AuthorityViolation),
      (if c then [v] else []) = [] ↔ ¬ c := by
    intro c _ v
    split_ifs with h <;> simp [h]
  have hfilter : ∀ {α : Type} (l : List α) (p : α → Bool) (f : α → AuthorityViolation),
      (l.filter p).map f = [] ↔ ∀ x ∈ l, p x = false := by
    intro α l p f
    rw [List.map_eq_nil_iff, List.filter_eq_nil_iff]
    simp
  rw [isAtMost, decide_eq_true_iff, authorityViolations]
  simp only [List.append_eq_nil_iff, hite, hfilter, not_lt, Bool.not_eq_false',
    decide_eq_false_iff_not, not_and, not_not, List.any_eq_true, Bool.not_eq_false]
  constructor
  · rintro ⟨⟨⟨⟨⟨⟨hp, hi⟩, hn⟩, hw⟩, hr⟩, hg⟩, hd⟩
    exact ⟨hp, hi, hn, hw, hr, hg, hd⟩
  · rintro ⟨hp, hi, hn, hw, hr, hg, hd⟩
    exact ⟨⟨⟨⟨⟨⟨hp, hi⟩, hn⟩, hw⟩, hr⟩, hg⟩, hd⟩

/-- The child of an intersection passes the check at the boundary. -/
theorem isAtMost_intersect (requested parentCeiling : Authority) (managed : ManagedPolicy)
    (h : 0 ≤ parentCeiling.maxChildDepth) :
    isAtMost (intersect requested parentCeiling managed) parentCeiling = true := by
  refine isAtMost_iff.mpr ⟨profile_intersect_le _ _ _, isolation_intersect_le _ _ _,
    networkAllowed_of_intersect _ _ _, fun root ↦ within_of_mem_intersect _ _ _, ?_, ?_,
    maxChildDepth_intersect_le _ _ _ h⟩
  · intro rule hr ha
    rcases mem_rules_intersect _ _ _ hr with hr | hr
    · exact List.mem_map_of_mem (List.mem_filter.mpr ⟨hr, decide_eq_true ha⟩)
    · rw [restrictiveRule, ha] at hr
      exact absurd hr (by decide)
  · exact fun grant hg ↦ of_decide_eq_true (List.mem_filter.mp hg).2

/-- A rule that only takes away says `ask` at least. -/
theorem opinion_of_restrictive {rule : PolicyRule} (h : restrictiveRule rule = true) :
    (Restriction.ask : WithBot Restriction) ≤ rule.opinion := by
  rcases of_decide_eq_true h with he | he
  · rw [opinion_of_ne_allow (by rw [he]; decide), he]
    decide
  · rw [opinion_of_ne_allow (by rw [he]; decide), he]
    decide

/-! ## The use of authority -/

/-- The context of whoever holds an authority. -/
def Authority.context (c : Authority) (ctx : PolicyContext) : PolicyContext :=
  { ctx with profile := c.profile, rules := c.rules, grants := c.grants }

section Exercise

variable {sys : Platform} {action : NormalizedAction} {ctx : PolicyContext}

/-- A profile that permits more leaves no action at a higher level. -/
theorem level_anti_profile {p q : PermissionProfile} (h : p ≤ q) :
    level sys action { ctx with profile := q } ≤ level sys action { ctx with profile := p } := by
  unfold level
  change (if protectedMatches sys action ctx = [] then _ else _) ≤
    (if protectedMatches sys action ctx = [] then _ else _)
  split
  · change (if ctx.actor.kind = .user ∨ isSideEffect action = false then _ else _) ≤
      (if ctx.actor.kind = .user ∨ isSideEffect action = false then _ else _)
    split
    · exact le_rfl
    · exact agentLevel_anti h _
  · exact protectedLevel_anti h

/-- Every grant of the request that is kept, and settles a question about the action, is one that the
parent need not envy: some grant of the parent settles it too. -/
def GrantsCovered (sys : Platform) (action : NormalizedAction) (ctx : PolicyContext)
    (requested parentCeiling : Authority) : Prop :=
  ∀ grant ∈ requested.grants, grant.id ∈ parentCeiling.grants.map Grant.id → ∀ exactOnly,
    grant.Settles action ctx.homeDir (actionDigest sys action) exactOnly ctx.now →
      ∃ held ∈ parentCeiling.grants,
        held.Settles action ctx.homeDir (actionDigest sys action) exactOnly ctx.now

/-- The child's authority is exercised within the parent's: what is permitted to the child is
permitted to the parent, in the same words unless the user acts. -/
def Within (sys : Platform) (action : NormalizedAction) (ctx : PolicyContext)
    (child parent : Authority) : Prop :=
  (evaluate sys action (parent.context ctx)).outcome.restriction ≤
    (evaluate sys action (child.context ctx)).outcome.restriction

theorem within_intersect {requested parentCeiling : Authority} {managed : ManagedPolicy}
    (h : GrantsCovered sys action ctx requested parentCeiling) :
    Within sys action ctx (intersect requested parentCeiling managed) parentCeiling := by
  unfold Within
  by_cases hc : checkCanonicalAction sys action = []
  · rw [restriction_evaluate hc, restriction_evaluate hc]
    refine sup_le_sup (sup_le_sup ?_ le_rfl) le_rfl
    have hexact : ∀ c : Authority, granted sys action (c.context ctx) true = true →
        granted sys action (c.context ctx) false = true :=
      fun c hg ↦ granted_of_exactOnly hg false
    -- The profile first, then the rules, then the grants.
    calc
      _ ≤ answer (level sys action ((intersect requested parentCeiling managed).context ctx))
            (opinions parentCeiling.rules action ctx.homeDir (actionDigest sys action))
            (granted sys action (parentCeiling.context ctx)) :=
          answer_mono_level (level_anti_profile (profile_intersect_le _ _ _)) (hexact _)
      _ ≤ answer (level sys action ((intersect requested parentCeiling managed).context ctx))
            (opinions (intersect requested parentCeiling managed).rules action ctx.homeDir
              (actionDigest sys action))
            (granted sys action (parentCeiling.context ctx)) := by
          refine answer_mono_rules
            (opinions_of_restricting action (List.subset_append_left _ _) (fun rule hr ↦ ?_) _ _)
            (hexact _)
          exact (mem_rules_intersect requested parentCeiling managed hr).imp_right
            fun hr ↦ .inr (opinion_of_restrictive hr)
      _ ≤ _ := by
          refine answer_anti_granted fun exactOnly hg ↦ ?_
          rw [granted_eq_true_iff] at hg ⊢
          obtain ⟨grant, hgrant, hset⟩ := hg
          obtain ⟨hreq, hid⟩ := List.mem_filter.mp hgrant
          exact h grant hreq (of_decide_eq_true hid) exactOnly hset
  · rw [outcome_of_not_canonical hc, outcome_of_not_canonical hc]

/-- The child holds no wider authority over an action than the parent. -/
structure NoWider (sys : Platform) (action : NormalizedAction) (ctx : PolicyContext)
    (child parent : Authority) : Prop where
  permits : (evaluate sys action (child.context ctx)).outcome.Permits →
    (evaluate sys action (parent.context ctx)).outcome.Permits
  /-- What is permitted to anyone but the user is called `allow`. -/
  allows : ctx.actor.kind ≠ .user → (evaluate sys action (child.context ctx)).outcome = .allow →
    (evaluate sys action (parent.context ctx)).outcome = .allow
  roots : ∀ root ∈ child.workspaceRoots,
    ∃ parentRoot ∈ parent.workspaceRoots, isWithin parentRoot root = true
  isolation : child.isolation ≤ parent.isolation
  network : child.networkAllowed = true → parent.networkAllowed = true
  depth : child.maxChildDepth ≤ parent.maxChildDepth

theorem noWider_intersect {requested parentCeiling : Authority} {managed : ManagedPolicy}
    (hd : 0 ≤ parentCeiling.maxChildDepth)
    (hg : GrantsCovered sys action ctx requested parentCeiling) :
    NoWider sys action ctx (intersect requested parentCeiling managed) parentCeiling where
  permits h := by
    rw [DecisionOutcome.permits_iff, ← Restriction.le_allow_iff] at h ⊢
    exact (within_intersect hg).trans h
  allows hu h := by
    have hle : Within sys action ctx (intersect requested parentCeiling managed) parentCeiling :=
      within_intersect hg
    unfold Within at hle
    rw [h] at hle
    have hparent := @outcome_of_not_user sys action (parentCeiling.context ctx) hu
    rw [hparent, Restriction.le_allow_iff.mp hle]
    rfl
  roots _ h := within_of_mem_intersect _ _ _ h
  isolation := isolation_intersect_le _ _ _
  network := networkAllowed_of_intersect _ _ _
  depth := maxChildDepth_intersect_le _ _ _ hd

/-! ## Chains of requests -/

/-- The authorities down a chain of requests, each under the ceiling of its time. -/
def chain (c : Authority) : List (Authority × ManagedPolicy) → List Authority
  | [] => [c]
  | (requested, managed) :: steps => c :: chain (intersect requested c managed) steps

/-- The grants are covered at every step of the chain. -/
def ChainCovered (sys : Platform) (action : NormalizedAction) (ctx : PolicyContext)
    (c : Authority) : List (Authority × ManagedPolicy) → Prop
  | [] => True
  | (requested, managed) :: steps =>
    GrantsCovered sys action ctx requested c ∧
      ChainCovered sys action ctx (intersect requested c managed) steps

theorem chain_eq_cons (c : Authority) (steps : List (Authority × ManagedPolicy)) :
    ∃ rest, chain c steps = c :: rest := by
  rcases steps with - | ⟨⟨requested, managed⟩, steps⟩
  · exact ⟨[], rfl⟩
  · exact ⟨_, rfl⟩

variable (sys action ctx)

end Exercise

/-! ### One grant, and another under its id -/

/-- A parent with an approval of something else than the request. -/
def exampleCeiling : Authority where
  profile := .ask
  isolation := .workspaceWrite
  networkAllowed := false
  workspaceRoots := ["/work"]
  rules := []
  grants := [⟨"g1", .session, some "7c6818dca467e4cb8221d3866f51e749e1bac6c9c7a8aeae24ff3c3f9417901b",
    none, 900, none, none, none, "user", "approved"⟩]
  maxChildDepth := 2

/-- A request that gives the id of that approval to one of the request. -/
def forgingRequest : Authority :=
  { exampleCeiling with
    grants := [⟨"g1", .session,
      some "0a04efb62d61fa84dfad3c6a427c5e3a79e920df08ae2408536e0f310c30ca3f",
      none, 900, none, none, none, "user", "approved"⟩] }

end QwenHarness.Policy
