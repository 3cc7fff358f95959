import QwenHarness.Policy.RuleGrants
import QwenHarness.Run.Along
import QwenHarness.Tools.Unattended

/-!
# Subagents

A turn may delegate to children, through a supervisor that admits them under bounds: how many run at
once, how many are started in all, how deep they are nested. The runner of an admitted child makes
the supervisor one level down, with the authority that the child was given.

The bound on the depth is the one of the supervisor. The levels of children that an authority allows
go down with every intersection, but the admission does not ask for them.
-/

namespace QwenHarness.Agents

open Policy
open Tools (RunAuthority)

/-! ## Admission -/

structure SubagentBudgetLimits where
  maxActiveChildren : ℕ
  maxTotalChildren : ℕ
  maxDepth : ℕ
deriving DecidableEq, Repr

def defaultSubagentLimits : SubagentBudgetLimits := ⟨4, 16, 2⟩

/-- The parent awaits the child, or collects its conclusion later. -/
inductive SubagentTiming where
  | foreground
  | background
deriving DecidableEq, Repr

inductive SubagentError where
  /-- The entry point is the one for the other timing. -/
  | wrongEntry
  | depthExceeded
  | countExceeded
  | activeExceeded
  | cancelled
  | authorityWidened
deriving DecidableEq, Repr

structure SubagentSpec where
  timing : SubagentTiming
  requestedAuthority : Authority
deriving DecidableEq, Repr

structure SubagentSupervisor where
  /-- The ceiling of every child. -/
  authority : Authority
  managed : ManagedPolicy
  /-- The turn of the user is at level 0. -/
  depth : ℕ
  limits : SubagentBudgetLimits
  totalSpawned : ℕ
  active : ℤ
deriving DecidableEq, Repr

namespace SubagentSupervisor

variable (s : SubagentSupervisor)

def childAuthority (requested : Authority) : Except SubagentError Authority :=
  let result := intersect requested s.authority s.managed
  if isAtMost result s.authority then .ok result else .error .authorityWidened

/-- `#admit`, where `aborted` says that the parent was cancelled before. -/
def admitSubagent (spec : SubagentSpec) (aborted : Bool) : Except SubagentError Authority :=
  if s.limits.maxDepth ≤ s.depth then .error .depthExceeded
  else if s.limits.maxTotalChildren ≤ s.totalSpawned then .error .countExceeded
  else if (s.limits.maxActiveChildren : ℤ) ≤ s.active then .error .activeExceeded
  else if aborted then .error .cancelled
  else s.childAuthority spec.requestedAuthority

/-- Both entry points count a child that is admitted before it runs. -/
def enter (timing : SubagentTiming) (spec : SubagentSpec) (aborted : Bool) :
    Except SubagentError (Authority × SubagentSupervisor) :=
  if spec.timing ≠ timing then .error .wrongEntry
  else
    (s.admitSubagent spec aborted).map fun authority ↦
      (authority, { s with totalSpawned := s.totalSpawned + 1, active := s.active + 1 })

/-- `spawn`, up to where it awaits the child. -/
def spawn (spec : SubagentSpec) (aborted : Bool) :
    Except SubagentError (Authority × SubagentSupervisor) := s.enter .foreground spec aborted

def spawnBackground (spec : SubagentSpec) (aborted : Bool) :
    Except SubagentError (Authority × SubagentSupervisor) := s.enter .background spec aborted

/-- What both do when the child is settled, whether it returned or was rejected. -/
def release : SubagentSupervisor := { s with active := s.active - 1 }

def childSupervisor (childAuthority : Authority) : SubagentSupervisor where
  authority := childAuthority
  managed := s.managed
  depth := s.depth + 1
  limits := s.limits
  totalSpawned := 0
  active := 0

end SubagentSupervisor

/-! ## The runner -/

/-- The authority of a run, as a ceiling. -/
def runAuthorityToAuthority (ra : RunAuthority) (workspaceRoot : String) : Authority where
  profile := ra.profile
  isolation := ra.isolation
  networkAllowed := ra.networkAllowed
  workspaceRoots := [workspaceRoot]
  rules := ra.rules
  grants := []
  maxChildDepth := ra.managedPolicy.maxChildDepth

def childRunAuthority (parent : RunAuthority) (intersected : Authority) : RunAuthority where
  managedPolicy := parent.managedPolicy
  rules := intersected.rules
  profile := intersected.profile
  isolation := intersected.isolation
  networkAllowed := intersected.networkAllowed

/-- A turn that can delegate: its supervisor, and the authority and depth that its runner was made
with. The authorities of those above, from the nearest on, are there to be spoken of. -/
structure Delegate where
  supervisor : SubagentSupervisor
  parentAuthority : RunAuthority
  depth : ℕ
  above : List Authority
deriving DecidableEq, Repr

/-- The authorities of those whom a child of the delegate runs for, from the nearest on. -/
def Delegate.holders (d : Delegate) : List Authority := d.supervisor.authority :: d.above

/-- `createDelegateSurface`. -/
def createDelegateSurface (parentAuthority : RunAuthority) (workspaceRoot : String)
    (limits : SubagentBudgetLimits) : Delegate where
  supervisor :=
    ⟨runAuthorityToAuthority parentAuthority workspaceRoot, parentAuthority.managedPolicy, 0,
      limits, 0, 0⟩
  parentAuthority := parentAuthority
  depth := 0
  above := []

/-- What the runner makes of a child: a delegate one level down, unless the child is refused or at
the last level. -/
def Delegate.child (d : Delegate) (workspaceRoot : String) (authority : Authority) :
    Option Delegate :=
  if isAtMost authority (runAuthorityToAuthority d.parentAuthority workspaceRoot) = true ∧
      d.depth + 1 < d.supervisor.limits.maxDepth then
    some
      { supervisor := d.supervisor.childSupervisor authority
        parentAuthority := childRunAuthority d.parentAuthority authority
        depth := d.depth + 1
        above := d.holders }
  else none

/-! ## The tree -/

/-- A child, by the place of the delegate that spawned it. -/
structure SubagentRun where
  delegate : ℕ
  authority : Authority
  settled : Bool
deriving DecidableEq, Repr

structure Tree where
  workspaceRoot : String
  delegates : List Delegate
  runs : List SubagentRun
deriving DecidableEq, Repr

inductive Op where
  | spawn (delegate : ℕ) (spec : SubagentSpec) (aborted : Bool)
  | spawnBackground (delegate : ℕ) (spec : SubagentSpec) (aborted : Bool)
  /-- A run returns or is rejected. -/
  | settle (run : ℕ)

/-- A child enters, or is refused. The delegate of the child, if it gets one, is the last. -/
def Tree.enter (w : Tree) (i : ℕ) (d : Delegate) :
    Except SubagentError (Authority × SubagentSupervisor) → Tree
  | .error _ => w
  | .ok (authority, supervisor) =>
    { w with
      delegates := w.delegates.set i { d with supervisor } ++
        (d.child w.workspaceRoot authority).toList
      runs := w.runs ++ [⟨i, authority, false⟩] }

def Tree.step (op : Op) (w : Tree) : Tree :=
  match op with
  | .spawn i spec aborted =>
    match w.delegates[i]? with
    | none => w
    | some d => w.enter i d (d.supervisor.spawn spec aborted)
  | .spawnBackground i spec aborted =>
    match w.delegates[i]? with
    | none => w
    | some d => w.enter i d (d.supervisor.spawnBackground spec aborted)
  | .settle r =>
    match w.runs[r]? with
    | none => w
    | some run =>
      if run.settled then w
      else
        { w with
          delegates := w.delegates.modify run.delegate fun d ↦
            { d with supervisor := d.supervisor.release }
          runs := w.runs.set r { run with settled := true } }

def Tree.new (parentAuthority : RunAuthority) (workspaceRoot : String)
    (limits : SubagentBudgetLimits) : Tree :=
  ⟨workspaceRoot, [createDelegateSurface parentAuthority workspaceRoot limits], []⟩

/-! ## What is at most what -/

section AtMost

variable {a b c : Authority} {root path other : String}

theorem toList_prefix_rootPrefix (path : String) : path.toList <+: rootPrefix path := by
  unfold rootPrefix
  split_ifs
  · exact List.prefix_rfl
  · exact List.prefix_append _ _

theorem isWithin_trans (h : isWithin root path = true) (h' : isWithin path other = true) :
    isWithin root other = true := by
  rw [isWithin_iff] at h h' ⊢
  rcases h with rfl | h
  · exact h'
  · rcases h' with rfl | h'
    · exact .inr h
    · exact .inr (h.trans ((toList_prefix_rootPrefix path).trans h'))

theorem atMost_trans (h : AtMost a b) (h' : AtMost b c) : AtMost a c where
  profile := h.profile.trans h'.profile
  isolation := h.isolation.trans h'.isolation
  network := h'.network ∘ h.network
  roots root hroot := by
    obtain ⟨parent, hparent, hwithin⟩ := h.roots root hroot
    obtain ⟨top, htop, hwithin'⟩ := h'.roots parent hparent
    exact ⟨top, htop, isWithin_trans hwithin' hwithin⟩
  rules rule hrule hallow := by
    obtain ⟨held, hheld, hid⟩ := List.mem_map.mp (h.rules rule hrule hallow)
    obtain ⟨hheld, heffect⟩ := List.mem_filter.mp hheld
    rw [← hid]
    exact h'.rules held hheld (of_decide_eq_true heffect)
  grants grant hgrant := by
    obtain ⟨held, hheld, hid⟩ := List.mem_map.mp (h.grants grant hgrant)
    rw [← hid]
    exact h'.grants held hheld
  depth := h.depth.trans h'.depth

/-- Where a level is left, the child has one less. -/
theorem maxChildDepth_intersect_lt (requested : Authority) {managed : ManagedPolicy}
    (h : 1 ≤ a.maxChildDepth) : (intersect requested a managed).maxChildDepth + 1 ≤
      a.maxChildDepth := by
  have hle : (intersect requested a managed).maxChildDepth ≤ a.maxChildDepth - 1 :=
    max_le (by omega) ((min_le_right _ _).trans (min_le_left _ _))
  omega

end AtMost

/-! ## What a spawn can do -/

section Enter

variable {s s' : SubagentSupervisor} {timing : SubagentTiming} {spec : SubagentSpec}
  {aborted : Bool} {authority : Authority}

/-- The bounds of the supervisor let one more child in. -/
def SubagentSupervisor.HasRoom (s : SubagentSupervisor) : Prop :=
  s.depth < s.limits.maxDepth ∧ s.totalSpawned < s.limits.maxTotalChildren ∧
    s.active < s.limits.maxActiveChildren

instance (s : SubagentSupervisor) : Decidable s.HasRoom :=
  inferInstanceAs (Decidable (s.depth < s.limits.maxDepth ∧
    s.totalSpawned < s.limits.maxTotalChildren ∧ s.active < s.limits.maxActiveChildren))

theorem SubagentSupervisor.admitSubagent_eq_ok_iff : s.admitSubagent spec aborted = .ok authority ↔
    s.HasRoom ∧ aborted = false ∧
      authority = intersect spec.requestedAuthority s.authority s.managed ∧
      AtMost authority s.authority := by
  rw [admitSubagent, HasRoom, childAuthority, ← not_le, ← not_le, ← not_le]
  split_ifs with hdepth htotal hactive haborted hat
  · exact ⟨fun h ↦ (by cases h), fun h ↦ absurd hdepth h.1.1⟩
  · exact ⟨fun h ↦ (by cases h), fun h ↦ absurd htotal h.1.2.1⟩
  · exact ⟨fun h ↦ (by cases h), fun h ↦ absurd hactive h.1.2.2⟩
  · exact ⟨fun h ↦ (by cases h), fun h ↦ absurd haborted (by simp [h.2.1])⟩
  · rw [Except.ok.injEq]
    refine ⟨?_, fun h ↦ h.2.2.1.symm⟩
    rintro rfl
    exact ⟨⟨hdepth, htotal, hactive⟩, Bool.not_eq_true _ ▸ haborted, rfl, isAtMost_iff.mp hat⟩
  · refine ⟨fun h ↦ (by cases h), ?_⟩
    rintro ⟨-, -, rfl, h⟩
    exact absurd (isAtMost_iff.mpr h) hat

theorem SubagentSupervisor.enter_eq_ok_iff : s.enter timing spec aborted = .ok (authority, s') ↔
    spec.timing = timing ∧ s.admitSubagent spec aborted = .ok authority ∧
      s' = { s with totalSpawned := s.totalSpawned + 1, active := s.active + 1 } := by
  rw [enter]
  split_ifs with htiming
  · exact ⟨fun h ↦ (by cases h), fun h ↦ absurd h.1 htiming⟩
  · cases s.admitSubagent spec aborted with
    | error e => exact ⟨fun h ↦ (by cases h), fun h ↦ (by cases h.2.1)⟩
    | ok result =>
      rw [Except.map, Except.ok.injEq, Prod.mk.injEq, Except.ok.injEq, not_not.mp htiming]
      exact ⟨fun h ↦ ⟨rfl, h.1, h.2.symm⟩, fun h ↦ ⟨h.2.1, h.2.2.symm⟩⟩

end Enter

/-! ## The condition -/

/-- Where the bounds of the supervisor let a child in, the authority of the supervisor has a level
left. -/
def Delegate.HasLevel (d : Delegate) (timing : SubagentTiming) (spec : SubagentSpec)
    (aborted : Bool) : Prop :=
  spec.timing = timing → aborted = false → d.supervisor.HasRoom →
    d.supervisor.authority.maxChildDepth ≠ 0

instance (d : Delegate) (timing : SubagentTiming) (spec : SubagentSpec) (aborted : Bool) :
    Decidable (d.HasLevel timing spec aborted) :=
  inferInstanceAs (Decidable (spec.timing = timing → aborted = false → d.supervisor.HasRoom →
    d.supervisor.authority.maxChildDepth ≠ 0))

/-- A spawn only comes where a level is left. -/
def Tree.HasLevel (op : Op) (w : Tree) : Prop :=
  match op with
  | .spawn i spec aborted => ∀ d ∈ w.delegates[i]?, d.HasLevel .foreground spec aborted
  | .spawnBackground i spec aborted => ∀ d ∈ w.delegates[i]?, d.HasLevel .background spec aborted
  | .settle _ => True

instance : ∀ op w, Decidable (Tree.HasLevel op w)
  | .spawn i spec aborted, w =>
    inferInstanceAs (Decidable (∀ d ∈ w.delegates[i]?, d.HasLevel .foreground spec aborted))
  | .spawnBackground i spec aborted, w =>
    inferInstanceAs (Decidable (∀ d ∈ w.delegates[i]?, d.HasLevel .background spec aborted))
  | .settle _, _ => inferInstanceAs (Decidable True)

/-! ## The steps of a tree -/

section Step

variable {w w' : Tree} {root : String} {d d' : Delegate} {i j r : ℕ} {op : Op}
  {authority : Authority} {run : SubagentRun} {timing : SubagentTiming} {spec : SubagentSpec}
  {aborted : Bool}

def Delegate.counted (d : Delegate) : Delegate :=
  { d with
    supervisor :=
      { d.supervisor with
        totalSpawned := d.supervisor.totalSpawned + 1
        active := d.supervisor.active + 1 } }

def Delegate.released (d : Delegate) : Delegate := { d with supervisor := d.supervisor.release }

@[simp] theorem Delegate.holders_counted : d.counted.holders = d.holders := rfl

@[simp] theorem Delegate.holders_released : d.released.holders = d.holders := rfl

/-- A child of the delegate at `i` is let in with an authority. -/
structure Enters (w w' : Tree) (i : ℕ) (d : Delegate) (authority : Authority) : Prop where
  delegate : w.delegates[i]? = some d
  room : d.supervisor.HasRoom
  least : 0 ≤ authority.maxChildDepth
  atMost : AtMost authority d.supervisor.authority
  less : 1 ≤ d.supervisor.authority.maxChildDepth →
    authority.maxChildDepth + 1 ≤ d.supervisor.authority.maxChildDepth
  delegates : w'.delegates =
    w.delegates.set i d.counted ++ (d.child w.workspaceRoot authority).toList
  runs : w'.runs = w.runs ++ [⟨i, authority, false⟩]

/-- A run that was not settled is. -/
structure Settles (w w' : Tree) (r : ℕ) (run : SubagentRun) : Prop where
  found : w.runs[r]? = some run
  pending : run.settled = false
  delegates : w'.delegates = w.delegates.modify run.delegate Delegate.released
  runs : w'.runs = w.runs.set r { run with settled := true }

/-- Both kinds of spawn. -/
def Tree.called (w : Tree) (i : ℕ) (timing : SubagentTiming) (spec : SubagentSpec)
    (aborted : Bool) : Tree :=
  match w.delegates[i]? with
  | none => w
  | some d => w.enter i d (d.supervisor.enter timing spec aborted)

theorem enters_called (hd : w.delegates[i]? = some d) (htiming : spec.timing = timing)
    (h : d.supervisor.admitSubagent spec aborted = .ok authority) :
    Enters w (w.called i timing spec aborted) i d authority := by
  have hcalled : w.called i timing spec aborted = w.enter i d (.ok (authority,
      d.counted.supervisor)) := by
    rw [Tree.called, hd]
    exact congrArg (w.enter i d) (SubagentSupervisor.enter_eq_ok_iff.mpr ⟨htiming, h, rfl⟩)
  obtain ⟨hroom, -, rfl, hat⟩ := SubagentSupervisor.admitSubagent_eq_ok_iff.mp h
  rw [hcalled]
  exact ⟨hd, hroom, le_max_left _ _, hat, maxChildDepth_intersect_lt _, rfl, rfl⟩

theorem called_cases (w : Tree) (i : ℕ) (timing : SubagentTiming) (spec : SubagentSpec)
    (aborted : Bool) : w.called i timing spec aborted = w ∨
      ∃ d authority, spec.timing = timing ∧ aborted = false ∧
        Enters w (w.called i timing spec aborted) i d authority := by
  cases hd : w.delegates[i]? with
  | none =>
    refine .inl ?_
    rw [Tree.called, hd]
  | some d =>
    cases h : d.supervisor.enter timing spec aborted with
    | error e =>
      refine .inl ?_
      rw [Tree.called, hd]
      dsimp only
      rw [h, Tree.enter]
    | ok result =>
      obtain ⟨authority, s'⟩ := result
      obtain ⟨htiming, hadmit, -⟩ := SubagentSupervisor.enter_eq_ok_iff.mp h
      exact .inr ⟨d, authority, htiming, (SubagentSupervisor.admitSubagent_eq_ok_iff.mp hadmit).2.1,
        enters_called hd htiming hadmit⟩

/-- A child that is let in where a level is left leaves one. -/
theorem Enters.level (h : Enters w w' i d authority)
    (hne : d.supervisor.authority.maxChildDepth ≠ 0) :
    1 ≤ d.supervisor.authority.maxChildDepth := by
  have hleast := h.least
  have hdepth := h.atMost.depth
  omega

theorem step_cases (op : Op) (w : Tree) : Tree.step op w = w ∨
    (∃ i d authority, Enters w (Tree.step op w) i d authority ∧
      (Tree.HasLevel op w → 1 ≤ d.supervisor.authority.maxChildDepth)) ∨
    ∃ r run, Settles w (Tree.step op w) r run := by
  cases op with
  | spawn i spec aborted =>
    rcases called_cases w i .foreground spec aborted with h | ⟨d, authority, htiming, hrun, h⟩
    · exact .inl h
    · exact .inr (.inl ⟨i, d, authority, h, fun hlevel ↦
        h.level (hlevel d h.delegate htiming hrun h.room)⟩)
  | spawnBackground i spec aborted =>
    rcases called_cases w i .background spec aborted with h | ⟨d, authority, htiming, hrun, h⟩
    · exact .inl h
    · exact .inr (.inl ⟨i, d, authority, h, fun hlevel ↦
        h.level (hlevel d h.delegate htiming hrun h.room)⟩)
  | settle r =>
    rw [Tree.step]
    cases hrun : w.runs[r]? with
    | none => exact .inl rfl
    | some run =>
      dsimp only
      split_ifs with hsettled
      · exact .inl rfl
      · exact .inr (.inr ⟨r, run, hrun, Bool.not_eq_true _ ▸ hsettled, rfl, rfl⟩)

theorem Delegate.child_eq_some (h : d.child root authority = some d') :
    d'.supervisor = d.supervisor.childSupervisor authority ∧ d'.above = d.holders := by
  rw [Delegate.child] at h
  split_ifs at h
  rw [← Option.some.inj h]
  exact ⟨rfl, rfl⟩

/-- The delegates after a child was let in. -/
theorem Enters.getElem?_delegates (h : Enters w w' i d authority)
    (hd' : w'.delegates[j]? = some d') :
    (j = i ∧ d' = d.counted) ∨ (j ≠ i ∧ w.delegates[j]? = some d') ∨
      (j = w.delegates.length ∧ d.child w.workspaceRoot authority = some d') := by
  rw [h.delegates] at hd'
  have hlen : (w.delegates.set i d.counted).length = w.delegates.length := List.length_set
  by_cases hj : j < w.delegates.length
  · rw [List.getElem?_append_left (hlen ▸ hj), List.getElem?_set] at hd'
    split_ifs at hd' with hij hi
    · exact .inl ⟨hij.symm, (Option.some.inj hd').symm⟩
    · exact .inr (.inl ⟨Ne.symm hij, hd'⟩)
  · rw [List.getElem?_append_right (hlen ▸ not_lt.mp hj), hlen] at hd'
    cases hchild : d.child w.workspaceRoot authority with
    | none =>
      rw [hchild] at hd'
      cases hd'
    | some child =>
      rw [hchild] at hd'
      obtain ⟨hlt, hget⟩ := List.getElem?_eq_some_iff.mp hd'
      rw [Option.toList_some, List.length_singleton] at hlt
      refine .inr (.inr ⟨by omega, ?_⟩)
      rw [← hget]
      exact congrArg some (List.getElem_singleton hlt).symm

/-- A delegate stays in its place, and so do its holders. -/
theorem exists_getElem?_step (op : Op) (hd : w.delegates[i]? = some d) :
    ∃ d', (Tree.step op w).delegates[i]? = some d' ∧ d'.holders = d.holders := by
  have hi : i < w.delegates.length := (List.getElem?_eq_some_iff.mp hd).1
  rcases step_cases op w with h | ⟨k, dk, authority, h, -⟩ | ⟨r, run, h⟩
  · rw [h]
    exact ⟨d, hd, rfl⟩
  · rw [h.delegates, List.getElem?_append_left (by rwa [List.length_set])]
    by_cases hk : k = i
    · subst hk
      rw [h.delegate] at hd
      rw [List.getElem?_set_self hi]
      exact ⟨_, rfl, by rw [Delegate.holders_counted, Option.some.inj hd]⟩
    · rw [List.getElem?_set_ne hk]
      exact ⟨d, hd, rfl⟩
  · rw [h.delegates, List.getElem?_modify, hd]
    split_ifs
    · exact ⟨_, rfl, Delegate.holders_released⟩
    · exact ⟨d, rfl, rfl⟩

/-- Every run of the next state is an old one, perhaps settled by now, or has been let in. -/
theorem mem_runs_step (hrun : run ∈ (Tree.step op w).runs) :
    (∃ old ∈ w.runs, run.delegate = old.delegate ∧ run.authority = old.authority) ∨
      ∃ d, Enters w (Tree.step op w) run.delegate d run.authority ∧
        (Tree.HasLevel op w → 1 ≤ d.supervisor.authority.maxChildDepth) := by
  rcases step_cases op w with h | ⟨i, d, authority, h, hlevel⟩ | ⟨r, old, h⟩
  · rw [h] at hrun
    exact .inl ⟨run, hrun, rfl, rfl⟩
  · rw [h.runs, List.mem_append, List.mem_singleton] at hrun
    rcases hrun with hrun | rfl
    · exact .inl ⟨run, hrun, rfl, rfl⟩
    · exact .inr ⟨d, h, hlevel⟩
  · rw [h.runs] at hrun
    rcases List.mem_or_eq_of_mem_set hrun with hrun | rfl
    · exact .inl ⟨run, hrun, rfl, rfl⟩
    · exact .inl ⟨old, List.mem_of_getElem? h.found, rfl, rfl⟩

theorem exists_mem_runs_step (op : Op) (hrun : run ∈ w.runs) :
    ∃ run' ∈ (Tree.step op w).runs, run'.delegate = run.delegate := by
  rcases step_cases op w with h | ⟨i, d, authority, h, -⟩ | ⟨r, old, h⟩
  · rw [h]
    exact ⟨run, hrun, rfl⟩
  · rw [h.runs]
    exact ⟨run, List.mem_append_left _ hrun, rfl⟩
  · obtain ⟨k, hk, hget⟩ := List.mem_iff_getElem.mp hrun
    obtain ⟨hr, hold⟩ := List.getElem?_eq_some_iff.mp h.found
    rw [h.runs]
    by_cases hrk : r = k
    · subst hrk
      refine ⟨_, List.mem_set hr _, ?_⟩
      rw [← hold, hget]
    · refine ⟨run, List.mem_iff_getElem.mpr ⟨k, by rwa [List.length_set], ?_⟩, rfl⟩
      rw [List.getElem_set_ne hrk, hget]

end Step

/-! ## The bounds -/

section Kept

variable {limits : SubagentBudgetLimits} {w w' : Tree} {d d' : Delegate} {i j r n : ℕ} {op : Op}
  {authority a : Authority}

/-- How many runs of the delegate at `i` are not settled. -/
def Tree.unsettled (w : Tree) (i : ℕ) : ℕ :=
  w.runs.countP fun run ↦ decide (run.delegate = i) && !run.settled

structure Delegate.Kept (limits : SubagentBudgetLimits) (unsettled : ℕ) (d : Delegate) : Prop where
  same : d.supervisor.limits = limits
  depth : d.supervisor.depth = d.above.length
  above : ∀ a ∈ d.above, AtMost d.supervisor.authority a
  active : d.supervisor.active = unsettled
  bound : d.supervisor.active ≤ limits.maxActiveChildren
  total : d.supervisor.totalSpawned ≤ limits.maxTotalChildren

/-- What a run may have that runs for these holders. -/
def Within (limits : SubagentBudgetLimits) (authority : Authority) (holders : List Authority) :
    Prop :=
  holders.length ≤ limits.maxDepth ∧ ∀ a ∈ holders, AtMost authority a

structure Tree.Kept (limits : SubagentBudgetLimits) (w : Tree) : Prop where
  delegates : ∀ (i : ℕ) (d : Delegate), w.delegates[i]? = some d → d.Kept limits (w.unsettled i)
  runs : ∀ run ∈ w.runs, ∃ d, w.delegates[run.delegate]? = some d ∧
    Within limits run.authority d.holders

theorem Delegate.Kept.within (hd : d.Kept limits n) (h : Enters w w' i d authority) :
    Within limits authority d.holders := by
  refine ⟨?_, ?_⟩
  · rw [Delegate.holders, List.length_cons, ← hd.depth, ← hd.same]
    exact h.room.1
  · intro a ha
    rcases List.mem_cons.mp ha with rfl | ha
    · exact h.atMost
    · exact atMost_trans h.atMost (hd.above a ha)

theorem Delegate.Kept.counted (hd : d.Kept limits n) (h : d.supervisor.HasRoom) :
    d.counted.Kept limits (n + 1) where
  same := hd.same
  depth := hd.depth
  above := hd.above
  active := by
    rw [Nat.cast_succ, ← hd.active]
    rfl
  bound := hd.same ▸ Int.add_one_le_of_lt h.2.2
  total := hd.same ▸ Nat.succ_le_of_lt h.2.1

theorem Delegate.Kept.released (hd : d.Kept limits (n + 1)) : d.released.Kept limits n where
  same := hd.same
  depth := hd.depth
  above := hd.above
  active := by
    change d.supervisor.active - 1 = n
    rw [hd.active, Nat.cast_succ, add_sub_cancel_right]
  bound := (Int.sub_le_self _ zero_le_one).trans hd.bound
  total := hd.total

theorem Delegate.Kept.child (hd : d.Kept limits n) (h : Enters w w' i d authority)
    (hchild : d.child w.workspaceRoot authority = some d') : d'.Kept limits 0 := by
  obtain ⟨hsupervisor, habove⟩ := Delegate.child_eq_some hchild
  refine ⟨?_, ?_, ?_, ?_, ?_, ?_⟩
  · rw [hsupervisor]
    exact hd.same
  · rw [hsupervisor, habove, Delegate.holders, List.length_cons, ← hd.depth]
    rfl
  · rw [hsupervisor, habove]
    exact (hd.within h).2
  · rw [hsupervisor]
    rfl
  · rw [hsupervisor]
    exact Int.natCast_nonneg _
  · rw [hsupervisor]
    exact Nat.zero_le _

theorem Enters.unsettled (h : Enters w w' i d authority) (j : ℕ) :
    w'.unsettled j = w.unsettled j + if i = j then 1 else 0 := by
  rw [Tree.unsettled, Tree.unsettled, h.runs, List.countP_append, List.countP_singleton]
  simp

theorem Settles.unsettled {run : SubagentRun} (h : Settles w w' r run) (j : ℕ) :
    w.unsettled j = w'.unsettled j + if run.delegate = j then 1 else 0 := by
  obtain ⟨hr, hget⟩ := List.getElem?_eq_some_iff.mp h.found
  have hle : (if run.delegate = j then 1 else 0) ≤ w.unsettled j := by
    split_ifs with hj
    · exact List.countP_pos_iff.mpr ⟨run, List.mem_of_getElem? h.found, by simp [hj, h.pending]⟩
    · exact Nat.zero_le _
  have hset : w'.unsettled j = w.unsettled j - if run.delegate = j then 1 else 0 := by
    rw [Tree.unsettled, Tree.unsettled, h.runs, List.countP_set hr, hget]
    simp [h.pending]
  omega

/-- Nothing runs yet for a delegate that is to come. -/
theorem Tree.Kept.unsettled_length (hw : w.Kept limits) : w.unsettled w.delegates.length = 0 := by
  refine List.countP_eq_zero.mpr fun run hrun ↦ ?_
  obtain ⟨d, hd, -⟩ := hw.runs run hrun
  have hlt : run.delegate < w.delegates.length := (List.getElem?_eq_some_iff.mp hd).1
  simp [hlt.ne]

theorem Tree.Kept.runs_step (hw : w.Kept limits) : ∀ run ∈ (Tree.step op w).runs,
    ∃ d, (Tree.step op w).delegates[run.delegate]? = some d ∧
      Within limits run.authority d.holders := by
  intro run hrun
  rcases mem_runs_step hrun with ⟨old, hold, hdelegate, hauthority⟩ | ⟨d, h, -⟩
  · obtain ⟨d, hd, hwithin⟩ := hw.runs old hold
    obtain ⟨d', hd', hholders⟩ := exists_getElem?_step op hd
    rw [hdelegate, hauthority]
    exact ⟨d', hd', hholders ▸ hwithin⟩
  · obtain ⟨d', hd', hholders⟩ := exists_getElem?_step op h.delegate
    exact ⟨d', hd', hholders ▸ (hw.delegates _ d h.delegate).within h⟩

theorem Tree.Kept.step (hw : w.Kept limits) : (Tree.step op w).Kept limits := by
  refine ⟨?_, hw.runs_step⟩
  intro j d' hd'
  rcases step_cases op w with h | ⟨i, d, authority, h, -⟩ | ⟨r, run, h⟩
  · rw [h] at hd' ⊢
    exact hw.delegates j d' hd'
  · rw [h.unsettled]
    rcases h.getElem?_delegates hd' with ⟨rfl, rfl⟩ | ⟨hj, hold⟩ | ⟨rfl, hchild⟩
    · rw [if_pos rfl]
      exact (hw.delegates j d h.delegate).counted h.room
    · rw [if_neg (Ne.symm hj)]
      exact hw.delegates j d' hold
    · have hi : i < w.delegates.length := (List.getElem?_eq_some_iff.mp h.delegate).1
      rw [if_neg hi.ne, hw.unsettled_length]
      exact (hw.delegates i d h.delegate).child h hchild
  · rw [h.delegates, List.getElem?_modify] at hd'
    obtain ⟨d, hd, hmodify⟩ := Option.map_eq_some_iff.mp hd'
    have hkept : d.Kept limits (w.unsettled j) := hw.delegates j d hd
    rw [h.unsettled j] at hkept
    rw [← hmodify]
    split_ifs at hkept ⊢ with hj
    · exact hkept.released
    · exact hkept

theorem Tree.kept_new (parentAuthority : RunAuthority) (workspaceRoot : String)
    (limits : SubagentBudgetLimits) :
    (Tree.new parentAuthority workspaceRoot limits).Kept limits := by
  refine ⟨?_, fun run hrun ↦ (by cases hrun)⟩
  intro i d hd
  obtain ⟨hi, hget⟩ := List.getElem?_eq_some_iff.mp hd
  obtain rfl : i = 0 := Nat.lt_one_iff.mp hi
  rw [← hget]
  exact ⟨rfl, rfl, fun a ha ↦ (by cases ha), rfl, Int.natCast_nonneg _, Nat.zero_le _⟩

theorem Tree.Kept.run (hw : w.Kept limits) (ops : List Op) :
    (Run.run Tree.step ops w).Kept limits := by
  induction ops generalizing w with
  | nil => exact hw
  | cons op ops ih => exact ih hw.step

end Kept

/-! ## The levels that an authority allows -/

section Levels

variable {limits : SubagentBudgetLimits} {w w' : Tree} {d d' : Delegate} {i j r n : ℕ} {op : Op}
  {authority a : Authority} {run : SubagentRun} {timing : SubagentTiming} {spec : SubagentSpec}
  {aborted : Bool}

/-- No run is deeper below one of its holders than that one's authority allows. -/
def Tree.Shallow (w : Tree) : Prop :=
  ∀ run ∈ w.runs, ∀ d, w.delegates[run.delegate]? = some d →
    ∀ (n : ℕ) a, d.holders[n]? = some a → ((n + 1 : ℕ) : ℤ) ≤ a.maxChildDepth

/-- Every level down has taken one from each above. -/
def Delegate.Spends (d : Delegate) : Prop :=
  ∀ (n : ℕ) a, d.holders[n]? = some a →
    d.supervisor.authority.maxChildDepth + n ≤ a.maxChildDepth

structure Tree.Spends (w : Tree) : Prop where
  delegates : ∀ (i : ℕ) (d : Delegate), w.delegates[i]? = some d → d.Spends
  runs : ∀ run ∈ w.runs, ∃ d, w.delegates[run.delegate]? = some d ∧
    1 ≤ d.supervisor.authority.maxChildDepth

theorem Tree.Spends.shallow (hw : w.Spends) : w.Shallow := by
  intro run hrun d hd n a ha
  obtain ⟨d', hd', hlevel⟩ := hw.runs run hrun
  rw [hd] at hd'
  obtain rfl := Option.some.inj hd'
  have hspends := hw.delegates _ d hd n a ha
  push_cast
  omega

theorem Delegate.Spends.child (hd : d.Spends) (h : Enters w w' i d authority)
    (hlevel : 1 ≤ d.supervisor.authority.maxChildDepth)
    (hchild : d.child w.workspaceRoot authority = some d') : d'.Spends := by
  obtain ⟨hsupervisor, habove⟩ := Delegate.child_eq_some hchild
  intro n a ha
  rw [Delegate.holders, hsupervisor, habove] at ha
  rw [hsupervisor]
  change authority.maxChildDepth + n ≤ a.maxChildDepth
  cases n with
  | zero =>
    obtain rfl : authority = a := Option.some.inj ha
    exact (add_zero _).le
  | succ n =>
    have hspends := hd n a ha
    have hless := h.less hlevel
    push_cast
    omega

theorem authority_eq_of_holders (h : d'.holders = d.holders) :
    d'.supervisor.authority = d.supervisor.authority := (List.cons.inj h).1

theorem Delegate.Spends.of_holders (hd : d.Spends) (h : d'.holders = d.holders) : d'.Spends := by
  intro n a ha
  rw [authority_eq_of_holders h]
  exact hd n a (h ▸ ha)

theorem Tree.Spends.runs_step (hw : w.Spends) (hlevel : Tree.HasLevel op w) :
    ∀ run ∈ (Tree.step op w).runs, ∃ d, (Tree.step op w).delegates[run.delegate]? = some d ∧
      1 ≤ d.supervisor.authority.maxChildDepth := by
  intro run hrun
  rcases mem_runs_step hrun with ⟨old, hold, hdelegate, -⟩ | ⟨d, h, hleft⟩
  · obtain ⟨d, hd, hone⟩ := hw.runs old hold
    obtain ⟨d', hd', hholders⟩ := exists_getElem?_step op hd
    rw [hdelegate]
    exact ⟨d', hd', authority_eq_of_holders hholders ▸ hone⟩
  · obtain ⟨d', hd', hholders⟩ := exists_getElem?_step op h.delegate
    exact ⟨d', hd', authority_eq_of_holders hholders ▸ hleft hlevel⟩

theorem Tree.Spends.step (hw : w.Spends) (hlevel : Tree.HasLevel op w) :
    (Tree.step op w).Spends := by
  refine ⟨?_, hw.runs_step hlevel⟩
  intro j d' hd'
  rcases step_cases op w with h | ⟨i, d, authority, h, hleft⟩ | ⟨r, run, h⟩
  · rw [h] at hd'
    exact hw.delegates j d' hd'
  · rcases h.getElem?_delegates hd' with ⟨rfl, rfl⟩ | ⟨-, hold⟩ | ⟨rfl, hchild⟩
    · exact (hw.delegates j d h.delegate).of_holders Delegate.holders_counted
    · exact hw.delegates j d' hold
    · exact (hw.delegates i d h.delegate).child h (hleft hlevel) hchild
  · rw [h.delegates, List.getElem?_modify] at hd'
    obtain ⟨d, hd, hmodify⟩ := Option.map_eq_some_iff.mp hd'
    rw [← hmodify]
    split_ifs
    · exact (hw.delegates j d hd).of_holders Delegate.holders_released
    · exact hw.delegates j d hd

theorem Tree.spends_new (parentAuthority : RunAuthority) (workspaceRoot : String)
    (limits : SubagentBudgetLimits) :
    (Tree.new parentAuthority workspaceRoot limits).Spends := by
  refine ⟨?_, fun run hrun ↦ (by cases hrun)⟩
  intro i d hd n a ha
  obtain ⟨hi, hget⟩ := List.getElem?_eq_some_iff.mp hd
  obtain rfl : i = 0 := Nat.lt_one_iff.mp hi
  rw [← hget] at ha ⊢
  obtain ⟨hn, hholder⟩ := List.getElem?_eq_some_iff.mp ha
  obtain rfl : n = 0 := Nat.lt_one_iff.mp hn
  rw [← hholder]
  exact (add_zero _).le

/-- A run goes below an authority that allows no child. -/
def Tree.Exceeds (w : Tree) : Prop :=
  ∃ run ∈ w.runs, ∃ d, w.delegates[run.delegate]? = some d ∧
    d.supervisor.authority.maxChildDepth = 0

theorem Tree.Exceeds.not_shallow (hw : w.Exceeds) : ¬ w.Shallow := by
  obtain ⟨run, hrun, d, hd, hzero⟩ := hw
  intro h
  have hone := h run hrun d hd 0 d.supervisor.authority rfl
  rw [hzero] at hone
  exact absurd hone (by decide)

theorem Tree.Exceeds.step (hw : w.Exceeds) : (Tree.step op w).Exceeds := by
  obtain ⟨run, hrun, d, hd, hzero⟩ := hw
  obtain ⟨run', hrun', hdelegate⟩ := exists_mem_runs_step op hrun
  obtain ⟨d', hd', hholders⟩ := exists_getElem?_step op hd
  exact ⟨run', hrun', d', hdelegate ▸ hd', authority_eq_of_holders hholders ▸ hzero⟩

/-- Without a level left the child is let in all the same. -/
theorem exceeds_called (hd : w.delegates[i]? = some d) (h : ¬ d.HasLevel timing spec aborted) :
    (w.called i timing spec aborted).Exceeds := by
  rw [Delegate.HasLevel] at h
  push Not at h
  obtain ⟨htiming, hrun, hroom, hzero⟩ := h
  have hadmit : d.supervisor.admitSubagent spec aborted = .ok
      (intersect spec.requestedAuthority d.supervisor.authority d.supervisor.managed) :=
    SubagentSupervisor.admitSubagent_eq_ok_iff.mpr
      ⟨hroom, hrun, rfl, isAtMost_iff.mp (isAtMost_intersect _ _ _ hzero.ge)⟩
  have henters := enters_called hd htiming hadmit
  refine ⟨_, henters.runs ▸ List.mem_append_right _ (List.mem_singleton_self _), d.counted, ?_,
    hzero⟩
  have hi : i < w.delegates.length := (List.getElem?_eq_some_iff.mp hd).1
  rw [henters.delegates, List.getElem?_append_left (by rwa [List.length_set]),
    List.getElem?_set_self hi]

theorem exceeds_step (h : ¬ Tree.HasLevel op w) : (Tree.step op w).Exceeds := by
  cases op with
  | spawn i spec aborted =>
    rw [Tree.HasLevel] at h
    push Not at h
    obtain ⟨d, hd, h⟩ := h
    exact exceeds_called hd h
  | spawnBackground i spec aborted =>
    rw [Tree.HasLevel] at h
    push Not at h
    obtain ⟨d, hd, h⟩ := h
    exact exceeds_called hd h
  | settle r => exact absurd trivial h

theorem exceeds_run (ops : List Op) (h : w.Exceeds) : (Run.run Tree.step ops w).Exceeds := by
  induction ops generalizing w with
  | nil => exact h
  | cons op ops ih => exact ih h.step

theorem shallow_run_iff {ops : List Op} (hw : w.Spends) :
    (Run.run Tree.step ops w).Shallow ↔ Run.Along Tree.step Tree.HasLevel ops w := by
  refine ⟨fun h ↦ ?_, fun h ↦ ?_⟩
  · induction ops generalizing w with
    | nil => exact trivial
    | cons op ops ih =>
      by_cases hlevel : Tree.HasLevel op w
      · exact ⟨hlevel, ih (hw.step hlevel) h⟩
      · exact absurd h (exceeds_run ops (exceeds_step hlevel)).not_shallow
  · exact (h.run (fun op w hw hlevel ↦ hw.step hlevel) hw).shallow

/-- **The bounds of subagents.** Whatever is spawned, settled and refused at all levels, each
supervisor counts its unsettled runs, keeps its bounds, and no run has more authority than one of
those above it. No run is deeper than the authorities above it allow, just if a child was never let
in where the authority of the supervisor has no level left. -/
theorem tree_run (parentAuthority : RunAuthority) (workspaceRoot : String)
    (limits : SubagentBudgetLimits) (ops : List Op) :
    let start := Tree.new parentAuthority workspaceRoot limits
    let w := Run.run Tree.step ops start
    (∀ (i : ℕ) (d : Delegate), w.delegates[i]? = some d →
      d.supervisor.active = w.unsettled i ∧
      d.supervisor.active ≤ limits.maxActiveChildren ∧
      d.supervisor.totalSpawned ≤ limits.maxTotalChildren) ∧
    (∀ run ∈ w.runs, ∃ d, w.delegates[run.delegate]? = some d ∧
      d.holders.length ≤ limits.maxDepth ∧
      ∀ a ∈ d.holders, isAtMost run.authority a = true) ∧
    (w.Shallow ↔ Run.Along Tree.step Tree.HasLevel ops start) := by
  have hkept := (Tree.kept_new parentAuthority workspaceRoot limits).run ops
  refine ⟨fun i d hd ↦ ?_, fun run hrun ↦ ?_, shallow_run_iff (Tree.spends_new _ _ _)⟩
  · have h := hkept.delegates i d hd
    exact ⟨h.active, h.bound, h.total⟩
  · obtain ⟨d, hd, hdepth, hatMost⟩ := hkept.runs run hrun
    exact ⟨d, hd, hdepth, fun a ha ↦ isAtMost_iff.mpr (hatMost a ha)⟩

/-- An operator who allows no children. -/
def childless : RunAuthority :=
  ⟨{ noManagedRestrictions with maxChildDepth := 0 }, [], .ask, .workspaceWrite, false⟩

/-- A child starts below an authority that allows none. -/
theorem not_shallow_childless : ¬ (Run.run Tree.step
    [.spawn 0 ⟨.foreground, runAuthorityToAuthority childless "/w"⟩ false]
    (Tree.new childless "/w" defaultSubagentLimits)).Shallow := by
  rw [shallow_run_iff (Tree.spends_new _ _ _)]
  decide +kernel

end Levels

end QwenHarness.Agents
