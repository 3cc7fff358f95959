import Mathlib.Order.WithBot
import Mathlib.Data.Multiset.Lattice
import QwenHarness.Policy.Action

/-!
# Matchers, rules and grants

One matcher serves managed rules, ordinary rules and rule grants. It asks for every field it has,
and of a list for some entry. A matcher without fields matches nothing.

How far an answer restricts is an order, `allow < ask < deny`, and merging rules is a join in it.
The merge only keeps the first of the most restrictive rules, but its effect is the join of all that
match. A rule of the repository never counts as an `allow`.
-/

namespace QwenHarness.Policy

/-! ## How restrictive an answer is -/

/-- An answer about an action, by how much it restricts. -/
inductive Restriction where
  | allow
  | ask
  | deny
deriving DecidableEq, Repr

namespace Restriction

def restrictiveness : Restriction → ℕ
  | allow => 0
  | ask => 1
  | deny => 2

theorem restrictiveness_injective : Function.Injective restrictiveness := by
  intro a b h
  cases a <;> cases b <;> first | rfl | cases h

instance : LinearOrder Restriction := LinearOrder.lift' restrictiveness restrictiveness_injective

instance : BoundedOrder Restriction where
  bot := allow
  bot_le a := by cases a <;> decide
  top := deny
  le_top a := by cases a <;> decide

@[simp] theorem bot_eq : (⊥ : Restriction) = allow := rfl

@[simp] theorem top_eq : (⊤ : Restriction) = deny := rfl

theorem allow_le (a : Restriction) : allow ≤ a := bot_le

theorem le_deny (a : Restriction) : a ≤ deny := le_top

theorem ask_le {a : Restriction} (h : a ≠ allow) : ask ≤ a := by
  cases a <;> first | decide | exact absurd rfl h

@[simp] theorem le_allow_iff {a : Restriction} : a ≤ allow ↔ a = allow := le_bot_iff

@[simp] theorem deny_le_iff {a : Restriction} : deny ≤ a ↔ a = deny := top_le_iff

end Restriction

/-! ## Matchers -/

/-- What an action must be. A field that is missing asks for nothing. -/
structure ActionMatcher where
  kinds : Option (List ActionKind)
  /-- Globs over paths. -/
  paths : Option (List String)
  /-- Globs over the first word of a command. -/
  commands : Option (List String)
  /-- Globs over the whole command line. -/
  commandLines : Option (List String)
  hosts : Option (List String)
  mcpServers : Option (List String)
  mcpTools : Option (List String)
  digest : Option String
deriving DecidableEq, Repr

/-- The matcher without fields. -/
def ActionMatcher.empty : ActionMatcher := ⟨none, none, none, none, none, none, none, none⟩

def isEmptyMatcher (m : ActionMatcher) : Bool := decide (m = .empty)

def anyPathGlob (patterns values : List String) : Bool :=
  patterns.any fun pattern ↦ values.any fun value ↦ matchGlob pattern value

def anyTextGlob (patterns values : List String) : Bool :=
  patterns.any fun pattern ↦ values.any fun value ↦ matchTextGlob pattern value

/-- The first word of the command an action runs. -/
def argv0 : NormalizedAction → Option String
  | .shell _ argv _ => argv.head?
  | .gitWrite .. => some "git"
  | .gitRead .. => some "git"
  | _ => none

/-- A field that is missing asks for nothing, and one that is there asks for `p`. -/
def asks {β : Type} (field : Option β) (p : β → Bool) : Bool := (field.map p).getD true

def matchesAction (m : ActionMatcher) (action : NormalizedAction) (homeDir digest : String) :
    Bool :=
  !isEmptyMatcher m &&
  asks m.digest (fun d ↦ decide (d = digest)) &&
  asks m.kinds (fun kinds ↦ decide (action.kind ∈ kinds)) &&
  asks m.paths (fun paths ↦
    decide (actionPaths action ≠ []) &&
      anyPathGlob (paths.map fun p ↦ expandHome p homeDir) (actionPaths action)) &&
  asks m.commands (fun commands ↦
    match argv0 action with
    | some word => anyTextGlob commands [word]
    | none => false) &&
  asks m.commandLines (fun lines ↦
    match action with
    | .shell command _ _ => anyTextGlob lines [command]
    | _ => false) &&
  asks m.hosts (fun hosts ↦
    match action with
    | .network _ _ host _ _ => anyTextGlob hosts [host]
    | _ => false) &&
  asks m.mcpServers (fun servers ↦
    match action with
    | .mcp server _ _ _ => anyTextGlob servers [server]
    | _ => false) &&
  asks m.mcpTools (fun tools ↦
    match action with
    | .mcp _ tool _ _ => anyTextGlob tools [tool]
    | _ => false)

/-! ## Rules -/

inductive RuleEffect where
  | allow
  | deny
  | ask
  | passthrough
deriving DecidableEq, Repr

/-- The restriction an effect asks for. A `passthrough` has no opinion. -/
def RuleEffect.restriction : RuleEffect → Option Restriction
  | .allow => some .allow
  | .deny => some .deny
  | .ask => some .ask
  | .passthrough => none

/-- Where a rule was written, from the least trusted place to the most trusted. -/
inductive RuleScope where
  | project
  | user
  | «local»
  | session
deriving DecidableEq, Repr

def RuleScope.name : RuleScope → String
  | .project => "project"
  | .user => "user"
  | .local => "local"
  | .session => "session"

structure PolicyRule where
  id : String
  scope : RuleScope
  effect : RuleEffect
  «match» : ActionMatcher
  reason : String
deriving DecidableEq, Repr

/-- The repository may not allow anything: whoever wrote it may be the attacker. -/
def scopesThatMayAllow : List RuleScope := [.user, .local, .session]

def mayAllow (scope : RuleScope) : Bool := decide (scope ∈ scopesThatMayAllow)

structure RuleMatch where
  rule : PolicyRule
  effect : RuleEffect
  /-- The effect the rule declares, where it does not count. -/
  downgradedFrom : Option RuleEffect
deriving DecidableEq, Repr

/-- How a rule that matches counts. -/
def PolicyRule.toMatch (rule : PolicyRule) : RuleMatch :=
  if rule.effect = .allow ∧ mayAllow rule.scope = false then ⟨rule, .passthrough, some .allow⟩
  else ⟨rule, rule.effect, none⟩

structure RuleMerge where
  /-- The rule that decides and its restriction. -/
  winner : Option (RuleMatch × Restriction)
  «matches» : List RuleMatch
deriving DecidableEq, Repr

/-- A match takes over if it restricts more than the winner so far. -/
def RuleMatch.challenge (winner : Option (RuleMatch × Restriction)) (m : RuleMatch) :
    Option (RuleMatch × Restriction) :=
  match m.effect.restriction with
  | none => winner
  | some candidate =>
    match winner with
    | none => some (m, candidate)
    | some (w, current) => if current < candidate then some (m, candidate) else some (w, current)

/-- Merge the rules that match, keeping the first of the most restrictive. -/
def mergeRules (rules : List PolicyRule) (action : NormalizedAction) (homeDir digest : String) :
    RuleMerge :=
  let ms :=
    (rules.filter fun rule ↦ matchesAction rule.match action homeDir digest).map
      PolicyRule.toMatch
  ⟨ms.foldl RuleMatch.challenge none, ms⟩

/-- The merged effect, or nothing if no rule has an opinion. -/
def RuleMerge.effect (m : RuleMerge) : Option Restriction := m.winner.map Prod.snd

/-! ### The merge is a join -/

/-- An answer that may be missing, with no answer below all others. -/
def saying : Option Restriction → WithBot Restriction
  | none => ⊥
  | some a => a

@[simp] theorem saying_none : saying none = ⊥ := rfl

@[simp] theorem saying_some (a : Restriction) : saying (some a) = a := rfl

/-- What a rule has to say about an action it matches. -/
def PolicyRule.opinion (rule : PolicyRule) : WithBot Restriction :=
  saying rule.toMatch.effect.restriction

/-- What the rules say together: the join of the opinions of those that match. -/
def opinions (rules : List PolicyRule) (action : NormalizedAction) (homeDir digest : String) :
    WithBot Restriction :=
  (((rules.filter fun rule ↦ matchesAction rule.match action homeDir digest).map
    PolicyRule.opinion : List _) : Multiset (WithBot Restriction)).sup

/-- The better of two answers restricts as both together. -/
theorem saying_challenge (w : Option (RuleMatch × Restriction)) (m : RuleMatch) :
    saying ((RuleMatch.challenge w m).map Prod.snd) =
      saying (w.map Prod.snd) ⊔ saying m.effect.restriction := by
  unfold RuleMatch.challenge
  rcases m.effect.restriction with - | candidate
  · simp
  · rcases w with - | ⟨w, current⟩
    · simp
    · by_cases h : current < candidate
      · simpa [h] using h.le
      · simpa [h] using not_lt.mp h

theorem saying_foldl_challenge (ms : List RuleMatch) (w : Option (RuleMatch × Restriction)) :
    saying ((ms.foldl RuleMatch.challenge w).map Prod.snd) =
      saying (w.map Prod.snd) ⊔
        ((ms.map fun m ↦ saying m.effect.restriction : List _) :
          Multiset (WithBot Restriction)).sup := by
  induction ms generalizing w with
  | nil => simp
  | cons m ms ih =>
    rw [List.foldl_cons, ih, saying_challenge, List.map_cons, ← Multiset.cons_coe,
      Multiset.sup_cons, sup_assoc]

/-- **The merge is a join.** The effect of the merged rules is the join of what they say. -/
theorem effect_mergeRules (rules : List PolicyRule) (action : NormalizedAction)
    (homeDir digest : String) :
    saying (mergeRules rules action homeDir digest).effect =
      opinions rules action homeDir digest := by
  rw [RuleMerge.effect, mergeRules, opinions, saying_foldl_challenge, List.map_map]
  exact bot_sup_eq _

theorem opinion_le_opinions {rules : List PolicyRule} {action : NormalizedAction}
    {homeDir digest : String} {rule : PolicyRule} (hr : rule ∈ rules)
    (hm : matchesAction rule.match action homeDir digest = true) :
    rule.opinion ≤ opinions rules action homeDir digest :=
  Multiset.le_sup (Multiset.mem_coe.mpr
    (List.mem_map_of_mem (List.mem_filter.mpr ⟨hr, hm⟩)))

theorem opinions_le {rules : List PolicyRule} {action : NormalizedAction}
    {homeDir digest : String} {a : WithBot Restriction}
    (h : ∀ rule ∈ rules, matchesAction rule.match action homeDir digest = true →
      rule.opinion ≤ a) :
    opinions rules action homeDir digest ≤ a := by
  refine Multiset.sup_le.mpr fun b hb ↦ ?_
  obtain ⟨rule, hr, rfl⟩ := List.mem_map.mp (Multiset.mem_coe.mp hb)
  obtain ⟨hr, hm⟩ := List.mem_filter.mp hr
  exact h rule hr hm

theorem opinions_mono {rules rules' : List PolicyRule} (h : rules ⊆ rules')
    (action : NormalizedAction) (homeDir digest : String) :
    opinions rules action homeDir digest ≤ opinions rules' action homeDir digest :=
  opinions_le fun _ hr hm ↦ opinion_le_opinions (h hr) hm

theorem opinion_of_ne_allow {rule : PolicyRule} (h : rule.effect ≠ .allow) :
    rule.opinion = saying rule.effect.restriction := by
  rw [PolicyRule.opinion, PolicyRule.toMatch, if_neg (fun ha ↦ h ha.1)]

/-- A rule of the repository never says `allow`. -/
theorem opinion_of_project {rule : PolicyRule} (h : rule.scope = .project) :
    rule.opinion = ⊥ ∨ (Restriction.ask : WithBot Restriction) ≤ rule.opinion := by
  unfold PolicyRule.opinion PolicyRule.toMatch
  rw [h]
  cases rule.effect with
  | allow => exact .inl rfl
  | deny => exact .inr (WithBot.coe_le_coe.mpr (Restriction.le_deny _))
  | ask => exact .inr le_rfl
  | passthrough => exact .inl rfl

/-! ## Grants -/

inductive GrantScope where
  | once
  | session
  | rule
deriving DecidableEq, Repr

def GrantScope.name : GrantScope → String
  | .once => "once"
  | .session => "session"
  | .rule => "rule"

/-- What a human said yes to. -/
structure Grant where
  id : String
  scope : GrantScope
  /-- The action, unless the scope is `rule`. -/
  actionDigest : Option String
  /-- The actions, if the scope is `rule`. -/
  «match» : Option ActionMatcher
  grantedAt : ℤ
  expiresAt : Option ℤ
  revokedAt : Option ℤ
  /-- When a `once` grant was spent. -/
  usedAt : Option ℤ
  grantedBy : String
  reason : String
deriving DecidableEq, Repr

inductive GrantRejection where
  | expired
  | revoked
  | alreadyUsed
  | scopeNotAllowedHere
deriving DecidableEq, Repr

def GrantRejection.name : GrantRejection → String
  | .expired => "expired"
  | .revoked => "revoked"
  | .alreadyUsed => "already-used"
  | .scopeNotAllowedHere => "scope-not-allowed-here"

/-- Why a grant is dead, or nothing if it is live. -/
def isGrantLive (grant : Grant) (now : ℤ) : Option GrantRejection :=
  if grant.revokedAt.any fun t ↦ decide (t ≤ now) then some .revoked
  else if grant.expiresAt.any fun t ↦ decide (t ≤ now) then some .expired
  else if grant.scope = .once ∧ grant.usedAt ≠ none then some .alreadyUsed
  else none

/-- Whether the grant is about the action. -/
def Grant.isAbout (grant : Grant) (action : NormalizedAction) (homeDir digest : String) : Bool :=
  match grant.scope with
  | .rule => grant.match.any fun m ↦ matchesAction m action homeDir digest
  | _ => decide (grant.actionDigest = some digest)

/-- Why a grant that is about the action cannot be used. A protected action is only settled by a
grant for exactly this action. -/
def Grant.rejection (grant : Grant) (exactOnly : Bool) (now : ℤ) : Option GrantRejection :=
  if exactOnly ∧ grant.scope = .rule then some .scopeNotAllowedHere else isGrantLive grant now

structure GrantLookup where
  grant : Option Grant
  /-- The grants before it that are about the action but cannot be used. -/
  rejected : List (Grant × GrantRejection)
deriving Repr

/-- The first grant that is about the action and can be used. -/
def findGrant (action : NormalizedAction) (homeDir digest : String) (exactOnly : Bool) (now : ℤ) :
    List Grant → GrantLookup
  | [] => ⟨none, []⟩
  | grant :: grants =>
    if grant.isAbout action homeDir digest then
      match grant.rejection exactOnly now with
      | some reason =>
        let rest := findGrant action homeDir digest exactOnly now grants
        ⟨rest.grant, (grant, reason) :: rest.rejected⟩
      | none => ⟨some grant, []⟩
    else findGrant action homeDir digest exactOnly now grants

/-- The grant settles a question about the action. -/
def Grant.Settles (grant : Grant) (action : NormalizedAction) (homeDir digest : String)
    (exactOnly : Bool) (now : ℤ) : Prop :=
  grant.isAbout action homeDir digest = true ∧ grant.rejection exactOnly now = none

instance (grant : Grant) (action : NormalizedAction) (homeDir digest : String)
    (exactOnly : Bool) (now : ℤ) : Decidable (grant.Settles action homeDir digest exactOnly now) :=
  inferInstanceAs (Decidable (_ ∧ _))

/-- A grant is found exactly if one of them settles the question. -/
theorem isSome_findGrant {action : NormalizedAction} {homeDir digest : String} {exactOnly : Bool}
    {now : ℤ} {grants : List Grant} :
    (findGrant action homeDir digest exactOnly now grants).grant.isSome = true ↔
      ∃ grant ∈ grants, grant.Settles action homeDir digest exactOnly now := by
  induction grants with
  | nil => simp [findGrant]
  | cons grant grants ih =>
    rw [findGrant]
    by_cases ha : grant.isAbout action homeDir digest = true
    · rw [if_pos ha]
      rcases hr : grant.rejection exactOnly now with - | reason
      · simp [Grant.Settles, ha, hr]
      · simpa [Grant.Settles, hr] using ih
    · rw [if_neg ha, ih]
      simp [Grant.Settles, ha]

/-- A grant for exactly one action, alive. -/
def Grant.IsExactFor (grant : Grant) (digest : String) (now : ℤ) : Prop :=
  grant.scope ≠ .rule ∧ grant.actionDigest = some digest ∧ isGrantLive grant now = none

/-- A protected action is settled by the grants for exactly this action and no others. -/
theorem settles_exactOnly_iff {grant : Grant} {action : NormalizedAction} {homeDir digest : String}
    {now : ℤ} :
    grant.Settles action homeDir digest true now ↔ grant.IsExactFor digest now := by
  unfold Grant.Settles Grant.IsExactFor Grant.isAbout Grant.rejection
  cases grant.scope <;> simp

/-- A grant for exactly one action settles every question about it. -/
theorem Grant.IsExactFor.settles {grant : Grant} {action : NormalizedAction}
    {homeDir digest : String} {now : ℤ} (h : grant.IsExactFor digest now) (exactOnly : Bool) :
    grant.Settles action homeDir digest exactOnly now := by
  obtain ⟨hs, hd, hl⟩ := h
  refine ⟨?_, ?_⟩
  · unfold Grant.isAbout
    split
    · exact absurd ‹_› hs
    · exact decide_eq_true hd
  · rw [Grant.rejection, if_neg (fun h ↦ hs h.2), hl]

/-- What settles a protected question settles it when it is not protected. -/
theorem Grant.Settles.of_exactOnly {grant : Grant} {action : NormalizedAction}
    {homeDir digest : String} {now : ℤ} (h : grant.Settles action homeDir digest true now)
    (exactOnly : Bool) : grant.Settles action homeDir digest exactOnly now :=
  (settles_exactOnly_iff.mp h).settles exactOnly

/-- Spend a `once` grant. -/
def consumeGrant (grants : List Grant) (id : String) (now : ℤ) : List Grant :=
  grants.map fun g ↦ if g.id = id ∧ g.scope = .once then { g with usedAt := some now } else g

end QwenHarness.Policy
