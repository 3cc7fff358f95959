import Mathlib.Order.MinMax
import QwenHarness.Policy.Rules
import QwenHarness.Table.First

/-!
# The managed ceiling

A managed policy only removes authority: it has rules that deny or ask, and no rule that allows.
Two ceilings are combined by taking the smaller of every bound. Their rules are put together too,
but of the rules with one id only the first is kept, whatever the others say.
-/

namespace QwenHarness

/-! ## Profiles and isolation in order -/

/-- How much a profile permits. -/
def PermissionProfile.rank : PermissionProfile → ℕ
  | .plan => 0
  | .ask => 1
  | .autoAcceptEdits => 2
  | .yolo => 3

theorem PermissionProfile.rank_injective : Function.Injective PermissionProfile.rank := by
  intro a b h
  cases a <;> cases b <;> first | rfl | cases h

instance : LinearOrder PermissionProfile :=
  LinearOrder.lift' PermissionProfile.rank PermissionProfile.rank_injective

/-- What a process may reach outside itself. `disabled` is no isolation at all. -/
inductive IsolationMode where
  | readOnly
  | workspaceWrite
  | disabled
deriving DecidableEq, Repr

def IsolationMode.name : IsolationMode → String
  | .readOnly => "read-only"
  | .workspaceWrite => "workspace-write"
  | .disabled => "disabled"

def IsolationMode.rank : IsolationMode → ℕ
  | .readOnly => 0
  | .workspaceWrite => 1
  | .disabled => 2

theorem IsolationMode.rank_injective : Function.Injective IsolationMode.rank := by
  intro a b h
  cases a <;> cases b <;> first | rfl | cases h

instance : LinearOrder IsolationMode :=
  LinearOrder.lift' IsolationMode.rank IsolationMode.rank_injective

namespace Policy

def leastProfile (a b : PermissionProfile) : PermissionProfile := if a.rank ≤ b.rank then a else b

def strictestIsolation (a b : IsolationMode) : IsolationMode := if a.rank ≤ b.rank then a else b

theorem leastProfile_eq_min (a b : PermissionProfile) : leastProfile a b = min a b :=
  (min_def a b).symm

theorem strictestIsolation_eq_min (a b : IsolationMode) : strictestIsolation a b = min a b :=
  (min_def a b).symm

/-! ## Managed policies -/

inductive ManagedEffect where
  | deny
  | ask
deriving DecidableEq, Repr

def ManagedEffect.restriction : ManagedEffect → Restriction
  | .deny => .deny
  | .ask => .ask

structure ManagedRule where
  id : String
  effect : ManagedEffect
  «match» : ActionMatcher
  reason : String
deriving DecidableEq, Repr

structure ManagedPolicy where
  version : ℤ
  rules : List ManagedRule
  /-- The most permissive profile anything may run under. -/
  maxProfile : PermissionProfile
  /-- The weakest isolation permitted. -/
  maxIsolation : IsolationMode
  /-- Without it there is no network, whatever a profile, a rule or a grant says. -/
  networkAllowed : Bool
  maxChildDepth : ℤ
deriving DecidableEq, Repr

/-- The ceiling of an installation that is not managed. It restricts nothing. -/
def noManagedRestrictions : ManagedPolicy := ⟨1, [], .yolo, .disabled, true, 2⟩

/-- Combine two ceilings. -/
def intersectManaged (a b : ManagedPolicy) : ManagedPolicy where
  version := max a.version b.version
  rules := Keyed.firsts ManagedRule.id [] (a.rules ++ b.rules)
  maxProfile := leastProfile a.maxProfile b.maxProfile
  maxIsolation := strictestIsolation a.maxIsolation b.maxIsolation
  networkAllowed := a.networkAllowed && b.networkAllowed
  maxChildDepth := min a.maxChildDepth b.maxChildDepth

/-- Combining three ceilings does not depend on where one starts. -/
theorem intersectManaged_assoc (a b c : ManagedPolicy) :
    intersectManaged (intersectManaged a b) c = intersectManaged a (intersectManaged b c) := by
  unfold intersectManaged
  simp only [leastProfile_eq_min, strictestIsolation_eq_min, max_assoc, min_assoc, Bool.and_assoc,
    Keyed.firsts_firsts_append, Keyed.firsts_append_firsts, List.append_assoc]

/-! ## What the rules of a ceiling ask for -/

section Restrictions

variable (action : NormalizedAction) (homeDir digest : String)

/-- The rules of a ceiling that match an action. -/
def ManagedRule.applies (rule : ManagedRule) : Bool :=
  matchesAction rule.match action homeDir digest

/-- The join of what the rules that match ask for. -/
def managedRestriction (rules : List ManagedRule) : Restriction :=
  (((rules.filter fun rule ↦ rule.applies action homeDir digest).map fun rule ↦
    rule.effect.restriction : List _) : Multiset Restriction).sup

/-- What the ceiling asks for: everything, if the network is off and the action needs it. -/
def ManagedPolicy.restriction (m : ManagedPolicy) : Restriction :=
  if action.kind = .network ∧ m.networkAllowed = false then .deny
  else managedRestriction action homeDir digest m.rules

variable {action : NormalizedAction} {homeDir digest : String} {rules rules' : List ManagedRule}
  {rule : ManagedRule}

theorem restriction_le_managedRestriction (hr : rule ∈ rules)
    (hm : rule.applies action homeDir digest = true) :
    rule.effect.restriction ≤ managedRestriction action homeDir digest rules :=
  Multiset.le_sup (Multiset.mem_coe.mpr
    (List.mem_map.mpr ⟨rule, List.mem_filter.mpr ⟨hr, hm⟩, rfl⟩))

theorem managedRestriction_le {a : Restriction}
    (h : ∀ rule ∈ rules, rule.applies action homeDir digest = true →
      rule.effect.restriction ≤ a) :
    managedRestriction action homeDir digest rules ≤ a := by
  refine Multiset.sup_le.mpr fun b hb ↦ ?_
  obtain ⟨rule, hr, rfl⟩ := List.mem_map.mp (Multiset.mem_coe.mp hb)
  obtain ⟨hr, hm⟩ := List.mem_filter.mp hr
  exact h rule hr hm

theorem managedRestriction_mono (h : rules ⊆ rules') :
    managedRestriction action homeDir digest rules ≤
      managedRestriction action homeDir digest rules' :=
  managedRestriction_le fun _ hr hm ↦ restriction_le_managedRestriction (h hr) hm

theorem managedRestriction_nil : managedRestriction action homeDir digest [] = .allow := rfl

theorem managedRestriction_cons_of_applies (h : rule.applies action homeDir digest = true) :
    managedRestriction action homeDir digest (rule :: rules) =
      rule.effect.restriction ⊔ managedRestriction action homeDir digest rules := by
  rw [managedRestriction, List.filter_cons_of_pos h, List.map_cons, ← Multiset.cons_coe,
    Multiset.sup_cons, managedRestriction]

theorem managedRestriction_cons_of_not_applies (h : rule.applies action homeDir digest = false) :
    managedRestriction action homeDir digest (rule :: rules) =
      managedRestriction action homeDir digest rules := by
  rw [managedRestriction, List.filter_cons_of_neg (by rw [h]; decide), managedRestriction]

end Restrictions

end Policy

end QwenHarness
