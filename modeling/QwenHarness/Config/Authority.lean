import QwenHarness.Config.Layers

/-!
# What a shared project document can do to the authority of a run

The authority of a run has three values, each under a ceiling: the profile, the isolation and the
network. They are resolved alike, so what a document can do to one is said once, for a `Key`: what
documents want of it, what they cap it at, and how its values are ordered.

A document of the repository cannot raise a ceiling or take away a deny, since a ceiling is a
minimum over all documents and the denies are a union. The value under the ceiling is another
matter: a shared project document outranks the user's, so it can loosen what the user asked for.
It can do so only by asking for it, only where nobody above it asks for anything, and never beyond
the ceilings the other documents set.
-/

namespace QwenHarness.Config

open Policy

/-! ## The authority of a run -/

/-- The authority a run executes under. -/
structure RunAuthority where
  managedPolicy : ManagedPolicy
  rules : List PolicyRule
  profile : PermissionProfile
  isolation : IsolationMode
  networkAllowed : Bool
  config : ResolvedConfig

def denyReason : String :=
  "denied by configuration; a deny is the union of every scope and can never be " ++
  "removed by a higher scope, a grant, or an approval"

def denyRule (denies : List String) : ManagedRule :=
  ⟨"config.deny", .deny, { ActionMatcher.empty with paths := some denies }, denyReason⟩

/-- The deny entries of a configuration as one managed rule, if there are any. -/
def managedRules (denies : List String) : List ManagedRule :=
  if denies.length = 0 then [] else [denyRule denies]

def authorityFromConfig (resolved : ResolvedConfig) : RunAuthority where
  managedPolicy := {
    version := 1
    rules := managedRules resolved.deny.value
    maxProfile := resolved.maxProfile.value
    maxIsolation := resolved.maxIsolation.value
    networkAllowed := resolved.networkAllowed.value
    maxChildDepth := noManagedRestrictions.maxChildDepth }
  rules := []
  profile := resolved.permissionProfile.value
  isolation := resolved.isolation.value
  networkAllowed := resolved.network.value
  config := resolved

/-- The authority that follows from a list of sources. -/
def authorityOf (sources : List ConfigSource) : Except ConfigResolutionError RunAuthority :=
  (resolveConfig sources).map authorityFromConfig

/-! ## One value under its ceiling -/

/-- The scopes whose word counts more than that of a shared project document. -/
def ConfigScope.isAboveProject (scope : ConfigScope) : Bool :=
  scope ∈ [ConfigScope.localProject, .env, .cli]

theorem ConfigScope.isAboveProject_iff {scope : ConfigScope} :
    scope.isAboveProject ↔ ∃ rank, scope.overrideRank = some rank ∧ 2 < rank := by
  cases scope <;> simp [isAboveProject, overrideRank]

/-- What a document does when it loosens a value: it asks for more than there was, and nobody whose
word counts more asks for anything. Even so the value stays under the ceiling. -/
def Loosened {α : Type} [LinearOrder α] (want : ConfigDoc → Option α) (doc : ConfigDoc)
    (others : List ConfigSource) (before ceiling after : α) : Prop :=
  (∃ v, want doc = some v ∧ before < v ∧ after ≤ v) ∧ after ≤ ceiling ∧
    ∀ t ∈ others, t.scope.isAboveProject → want t.config = none

theorem subset_insert {α : Type} (pre post : List α) (x : α) : pre ++ post ⊆ pre ++ x :: post :=
  fun _ h ↦ (List.mem_append.mp h).elim (List.mem_append_left _) fun h ↦
    List.mem_append_right _ (List.mem_cons_of_mem _ h)

namespace Key

variable {α : Type} [LinearOrder α] {k : Key α} {pre post : List ConfigSource}
  {s : ConfigSource} {value ceiling value' ceiling' : α}

/-- **A source put among others** leaves what they want as it is, or has the last word itself. -/
theorem desired_insert (k : Key α) (pre post : List ConfigSource) (s : ConfigSource) :
    k.desired (pre ++ s :: post) = k.desired (pre ++ post) ∨
    ∃ v rank, k.want s.config = some v ∧ s.scope.overrideRank = some rank ∧
      k.desired (pre ++ s :: post) = some v ∧
      ∀ t ∈ pre ++ post, ∀ r, t.scope.overrideRank = some r → rank < r →
        k.want t.config = none := by
  rw [desired, desired, List.filterMap_append, List.filterMap_append, List.filterMap_cons]
  rcases hx : overrides k.want s with - | x
  · exact .inl rfl
  rcases Pick.pick_insert outranks_trans outranks_keep (pre.filterMap (overrides k.want)) x
    (post.filterMap (overrides k.want)) with h | ⟨h, hpre, hpost⟩
  · exact .inl (by rw [h])
  obtain ⟨rank, hrank, hx⟩ := Option.bind_eq_some_iff.mp hx
  obtain ⟨v, hv, rfl⟩ := Option.map_eq_some_iff.mp hx
  refine .inr ⟨v, rank, hv, hrank, by rw [h]; rfl, fun t ht r hr hlt ↦ ?_⟩
  by_contra hne
  obtain ⟨w, hw⟩ := Option.ne_none_iff_exists'.mp hne
  have hcontributes : overrides k.want t = some ⟨w, t, r⟩ := by rw [overrides, hr, hw]; rfl
  rcases List.mem_append.mp ht with ht | ht
  · have := outranks_iff.mp (hpre _ (List.mem_filterMap.mpr ⟨t, ht, hcontributes⟩))
    exact absurd hlt (not_lt.mpr this)
  · exact hpost _ (List.mem_filterMap.mpr ⟨t, ht, hcontributes⟩) (outranks_iff.mpr hlt.le)

/-- What a shared project document can do to one value. -/
theorem Settles.insert (hs : s.scope = .sharedProject)
    (h : k.Settles (builtinSource :: (pre ++ post)) value ceiling)
    (h' : k.Settles (builtinSource :: (pre ++ s :: post)) value' ceiling') :
    value' ≤ value ∨ Loosened k.want s.config (pre ++ post) value ceiling value' := by
  have hceil : ceiling' ≤ ceiling :=
    capped_le (List.cons_subset_cons _ (subset_insert pre post s)) h.capped h'.capped
  obtain ⟨d, hd, rfl⟩ := h.value
  obtain ⟨d', hd', rfl⟩ := h'.value
  rcases desired_insert k (builtinSource :: pre) post s with hsame | ⟨v, rank, hv, hrank, hword,
    hothers⟩
  · obtain rfl : d' = d := Option.some.inj (hd'.symm.trans (hsame.trans hd))
    exact .inl (min_le_min_left _ hceil)
  · obtain rfl : d' = v := Option.some.inj (hd'.symm.trans hword)
    rw [hs] at hrank
    obtain rfl : 2 = rank := Option.some.inj hrank
    refine or_iff_not_imp_left.mpr fun hloose ↦ ⟨⟨d', hv, ?_, min_le_left _ _⟩, ?_, ?_⟩
    · exact (not_le.mp hloose).trans_le (min_le_left _ _)
    · exact (min_le_right _ _).trans hceil
    · intro t ht habove
      obtain ⟨r, hr, hlt⟩ := ConfigScope.isAboveProject_iff.mp habove
      exact hothers t (List.mem_cons_of_mem _ ht) r hr hlt

end Key

/-! ## The authority of every list of sources -/

/-- What an authority is made of: three values under their ceilings, and the denies as a rule. -/
structure Derives (sources : List ConfigSource) (a : RunAuthority) : Prop where
  profile : profileKey.Settles (builtinSource :: sources) a.profile a.managedPolicy.maxProfile
  isolation :
    isolationKey.Settles (builtinSource :: sources) a.isolation a.managedPolicy.maxIsolation
  network :
    networkKey.Settles (builtinSource :: sources) a.networkAllowed a.managedPolicy.networkAllowed
  rules : a.managedPolicy.rules = managedRules (resolveDeny (builtinSource :: sources)).value
  maxChildDepth : a.managedPolicy.maxChildDepth = noManagedRestrictions.maxChildDepth

/-- Every list of sources gives an authority, since every list of sources resolves. -/
theorem exists_authorityOf (sources : List ConfigSource) :
    ∃ a, authorityOf sources = .ok a ∧ Derives sources a := by
  obtain ⟨r, hr, h⟩ := exists_resolveConfig sources
  refine ⟨authorityFromConfig r, by rw [authorityOf, hr]; rfl, ?_⟩
  exact ⟨h.profile, h.isolation, h.network,
    congrArg (fun deny : ResolvedDeny ↦ managedRules deny.value) h.deny, rfl⟩

/-! ## Denies -/

/-- A ceiling denies a path pattern, by some rule of its. -/
def denies (m : ManagedPolicy) (path : String) : Prop :=
  ∃ rule ∈ m.rules, rule.effect = .deny ∧ ∃ paths, rule.match.paths = some paths ∧ path ∈ paths

section Denies

variable {all all' : List ConfigSource} {a : RunAuthority} {path : String}

theorem mem_resolveDeny_iff : path ∈ (resolveDeny all).value ↔
    ∃ s ∈ all, path ∈ s.config.deny.getD [] := by
  have hfirsts : ∀ xs : List String, path ∈ Keyed.firsts id [] xs ↔ path ∈ xs := fun xs ↦ by
    refine ⟨fun h ↦ Keyed.firsts_subset h, fun h ↦ ?_⟩
    obtain ⟨y, hy, rfl⟩ : ∃ y ∈ Keyed.firsts id [] xs, id y = id path :=
      Keyed.exists_mem_firsts h List.not_mem_nil
    exact hy
  rw [resolveDeny, hfirsts]
  simp only [List.map_flatMap, List.mem_flatMap, List.mem_map, exists_exists_and_eq_and,
    exists_eq_right]

theorem denies_managedRules_iff {m : ManagedPolicy} {entries : List String}
    (h : m.rules = managedRules entries) : denies m path ↔ path ∈ entries := by
  rw [denies, h, managedRules]
  split
  · next hnil => simp [List.length_eq_zero_iff.mp hnil]
  · simp [denyRule]

theorem denyRule_applies_iff {entries : List String} {action : NormalizedAction}
    {homeDir digest : String} : (denyRule entries).applies action homeDir digest ↔
      actionPaths action ≠ [] ∧ ∃ p ∈ entries, ∃ value ∈ actionPaths action,
        matchGlob (expandHome p homeDir) value := by
  simp [ManagedRule.applies, denyRule, matchesAction, asks, isEmptyMatcher, ActionMatcher.empty,
    anyPathGlob]

/-- More deny entries restrict every action at least as far. -/
theorem managedRestriction_managedRules_mono {entries entries' : List String}
    (h : entries ⊆ entries') (action : NormalizedAction) (homeDir digest : String) :
    managedRestriction action homeDir digest (managedRules entries) ≤
      managedRestriction action homeDir digest (managedRules entries') := by
  refine managedRestriction_le fun rule hrule happlies ↦ ?_
  rw [managedRules] at hrule
  split at hrule
  · cases hrule
  · obtain rfl := List.mem_singleton.mp hrule
    obtain ⟨hpaths, p, hp, value, hvalue, hglob⟩ := denyRule_applies_iff.mp happlies
    have hmem : denyRule entries' ∈ managedRules entries' := by
      rw [managedRules, if_neg (List.length_pos_of_mem (h hp)).ne']
      exact List.mem_cons_self
    have happlies' : (denyRule entries').applies action homeDir digest :=
      denyRule_applies_iff.mpr ⟨hpaths, p, h hp, value, hvalue, hglob⟩
    have hle := restriction_le_managedRestriction hmem happlies'
    exact hle

end Denies

/-! ## Adding or changing a shared project document -/

/-- A ceiling that restricts at least as far as another in every respect. -/
structure Tightens (m m' : ManagedPolicy) : Prop where
  maxProfile : m.maxProfile ≤ m'.maxProfile
  maxIsolation : m.maxIsolation ≤ m'.maxIsolation
  networkAllowed : m.networkAllowed ≤ m'.networkAllowed
  maxChildDepth : m.maxChildDepth ≤ m'.maxChildDepth
  denies : ∀ path, denies m' path → denies m path
  restriction : ∀ action homeDir digest,
    m'.restriction action homeDir digest ≤ m.restriction action homeDir digest

/-- An authority that is no looser than another. -/
structure NoLooser (a b : RunAuthority) : Prop where
  profile : a.profile ≤ b.profile
  isolation : a.isolation ≤ b.isolation
  network : a.networkAllowed ≤ b.networkAllowed
  ceiling : Tightens a.managedPolicy b.managedPolicy

/-- A shared project document is added to a list of sources, or put in place of another. -/
inductive ProjectChange : List ConfigSource → List ConfigSource → Prop
  | add (pre post : List ConfigSource) (id : String) (doc : ConfigDoc) (origin : ConfigOrigin) :
    ProjectChange (pre ++ post) (pre ++ ⟨id, .sharedProject, doc, origin⟩ :: post)
  | change (pre post : List ConfigSource) (id : String) (doc doc' : ConfigDoc)
      (origin : ConfigOrigin) :
    ProjectChange (pre ++ ⟨id, .sharedProject, doc, origin⟩ :: post)
      (pre ++ ⟨id, .sharedProject, doc', origin⟩ :: post)

theorem Derives.tightens {sources sources' : List ConfigSource} {a a' : RunAuthority}
    (h : Derives sources a) (h' : Derives sources' a') (hsub : sources ⊆ sources') :
    Tightens a'.managedPolicy a.managedPolicy := by
  have hall : builtinSource :: sources ⊆ builtinSource :: sources' := List.cons_subset_cons _ hsub
  have hentries : (resolveDeny (builtinSource :: sources)).value ⊆
      (resolveDeny (builtinSource :: sources')).value := fun path hpath ↦ by
    obtain ⟨s, hs, hp⟩ := mem_resolveDeny_iff.mp hpath
    exact mem_resolveDeny_iff.mpr ⟨s, hall hs, hp⟩
  have hnetwork := Key.capped_le hall h.network.capped h'.network.capped
  refine ⟨Key.capped_le hall h.profile.capped h'.profile.capped,
    Key.capped_le hall h.isolation.capped h'.isolation.capped, hnetwork,
    (h'.maxChildDepth.trans h.maxChildDepth.symm).le, fun path hpath ↦ ?_,
    fun action homeDir digest ↦ ?_⟩
  · rw [denies_managedRules_iff h.rules] at hpath
    exact (denies_managedRules_iff h'.rules).mpr (hentries hpath)
  · rw [ManagedPolicy.restriction, ManagedPolicy.restriction]
    by_cases hoff : action.kind = .network ∧ a'.managedPolicy.networkAllowed = false
    · rw [if_pos hoff]
      exact Restriction.le_deny _
    · have hoff' : ¬ (action.kind = .network ∧ a.managedPolicy.networkAllowed = false) := by
        rintro ⟨hkind, hfalse⟩
        rw [hfalse] at hnetwork
        exact hoff ⟨hkind, Bool.eq_false_of_le_false hnetwork⟩
      rw [if_neg hoff, if_neg hoff', h.rules, h'.rules]
      exact managedRestriction_managedRules_mono hentries action homeDir digest

/-- **What a shared project document does to the authority of a run**, whether it is new or was put
in place of another: against the other sources alone no ceiling is higher and no deny is gone, and
the profile, the isolation and the network are no looser except where the document itself asks
for more, nobody whose word counts more asks for anything, and the ceilings of the others allow
it. -/
theorem projectDocument_keeps_ceiling (pre post : List ConfigSource) (id : String)
    (doc : ConfigDoc) (origin : ConfigOrigin) :
    ∃ without withDoc, authorityOf (pre ++ post) = .ok without ∧
      authorityOf (pre ++ ⟨id, .sharedProject, doc, origin⟩ :: post) = .ok withDoc ∧
      Tightens withDoc.managedPolicy without.managedPolicy ∧
      (withDoc.profile ≤ without.profile ∨ Loosened ConfigDoc.permissionProfile doc (pre ++ post)
        without.profile without.managedPolicy.maxProfile withDoc.profile) ∧
      (withDoc.isolation ≤ without.isolation ∨ Loosened ConfigDoc.isolation doc (pre ++ post)
        without.isolation without.managedPolicy.maxIsolation withDoc.isolation) ∧
      (withDoc.networkAllowed ≤ without.networkAllowed ∨ Loosened ConfigDoc.network doc
        (pre ++ post) without.networkAllowed without.managedPolicy.networkAllowed
        withDoc.networkAllowed) := by
  obtain ⟨without, hwithout, h⟩ := exists_authorityOf (pre ++ post)
  obtain ⟨withDoc, hwith, h'⟩ := exists_authorityOf
    (pre ++ ⟨id, .sharedProject, doc, origin⟩ :: post)
  refine ⟨without, withDoc, hwithout, hwith, h.tightens h' (subset_insert pre post _), ?_, ?_,
    ?_⟩
  · exact h.profile.insert rfl h'.profile
  · exact h.isolation.insert rfl h'.isolation
  · exact h.network.insert rfl h'.network

/-- The user asks for plans only; a document of the repository switches the prompts, the isolation
and the block on the network off. -/
theorem not_noLooser_projectDocument : ¬ ∀ sources sources' a a', ProjectChange sources sources' →
    authorityOf sources = .ok a → authorityOf sources' = .ok a' → NoLooser a' a := by
  intro h
  let user : ConfigSource :=
    ⟨"user", .user, { ConfigDoc.empty with permissionProfile := some .plan }, .file "config.json"⟩
  let doc : ConfigDoc := { ConfigDoc.empty with
    permissionProfile := some .yolo, isolation := some .disabled, network := some true }
  obtain ⟨a, ha⟩ : ∃ a, authorityOf [user] = .ok a := ⟨_, rfl⟩
  obtain ⟨a', ha'⟩ : ∃ a,
      authorityOf [user, ⟨"shared-project", .sharedProject, doc, .file "config.json"⟩] = .ok a :=
    ⟨_, rfl⟩
  have hloose := h _ _ a a' (.add [user] [] "shared-project" doc (.file "config.json")) ha ha'
  have hbefore : a.profile = .plan := by rw [← Except.ok.inj ha]; rfl
  have hafter : a'.profile = .yolo := by rw [← Except.ok.inj ha']; rfl
  have hle := hloose.profile
  rw [hbefore, hafter] at hle
  exact absurd hle (by decide)

end QwenHarness.Config

/-!
## Precedence and order of the sources

Two rules go over the same list. An ordinary value is that of the last of the highest sources that
set it, so it matters which of two equal scopes comes first. A ceiling is a least value and the
denies are a union, so neither depends on the order at all, and a further source only narrows them.
Where every scope is there once, no two sources are equal and the order is of no account.
-/

namespace QwenHarness.Config

/-! ## The last word -/

section Word

variable {α : Type} {select : ConfigDoc → Option α} {all sources sources' : List ConfigSource}
  {r : Resolved α}

/-- A value is that of a source of the ladder that sets it, no source before it that sets it stands
higher, and every source after it that sets it stands lower. -/
def HasLastWord (select : ConfigDoc → Option α) (all : List ConfigSource) (r : Resolved α) : Prop :=
  ∃ pre s post rank, all = pre ++ s :: post ∧ s.scope.overrideRank = some rank ∧
    select s.config = some r.value ∧ r.source = sourceRef s ∧
    (∀ t ∈ pre, ∀ q, t.scope.overrideRank = some q → select t.config ≠ none → q ≤ rank) ∧
    ∀ t ∈ post, ∀ q, t.scope.overrideRank = some q → select t.config ≠ none → q < rank

theorem overrides_eq_some_iff {s : ConfigSource} {b : Best α} : overrides select s = some b ↔
    s.scope.overrideRank = some b.measure ∧ select s.config = some b.value ∧ b.source = s := by
  rw [overrides, Option.bind_eq_some_iff]
  simp only [Option.map_eq_some_iff]
  constructor
  · rintro ⟨rank, hrank, v, hv, rfl⟩
    exact ⟨hrank, hv, rfl⟩
  · rintro ⟨hrank, hv, rfl⟩
    exact ⟨b.measure, hrank, b.value, hv, rfl⟩

/-- What the sources want by precedence has the last word. -/
theorem hasLastWord_of_word (h : word select all = some r) : HasLastWord select all r := by
  obtain ⟨b, hb, rfl⟩ := Option.map_eq_some_iff.mp h
  obtain ⟨pre, post, hsplit, hpre, hpost⟩ := Pick.pick_split outranks_trans outranks_keep hb
  obtain ⟨l, m, rfl, hl, hm⟩ := List.filterMap_eq_append_iff.mp hsplit
  obtain ⟨mid, s, n, rfl, hmid, hs, hn⟩ := List.filterMap_eq_cons_iff.mp hm
  obtain ⟨hrank, hvalue, hsource⟩ := overrides_eq_some_iff.mp hs
  refine ⟨l ++ mid, s, n, b.measure, (List.append_assoc l mid _).symm, hrank, hvalue,
    congrArg sourceRef hsource, fun t ht q hq hset ↦ ?_, fun t ht q hq hset ↦ ?_⟩
  all_goals
    obtain ⟨v, hv⟩ := Option.ne_none_iff_exists'.mp hset
    have hcontributes : overrides select t = some ⟨v, t, q⟩ :=
      overrides_eq_some_iff.mpr ⟨hq, hv, rfl⟩
  · rcases List.mem_append.mp ht with ht | ht
    · exact outranks_iff.mp
        (hpre _ (hl ▸ List.mem_filterMap.mpr ⟨t, ht, hcontributes⟩))
    · rw [hmid t ht] at hcontributes
      cases hcontributes
  · have := hpost _ (hn ▸ List.mem_filterMap.mpr ⟨t, ht, hcontributes⟩)
    exact not_le.mp fun hle ↦ this (outranks_iff.mpr hle)

theorem ConfigScope.eq_of_overrideRank {a b : ConfigScope} {rank : ℕ}
    (ha : a.overrideRank = some rank) (hb : b.overrideRank = some rank) : a = b := by
  revert ha hb
  cases a <;> cases b <;> simp +contextual [overrideRank] <;> omega

/-- Where every scope is there once, the order of the sources is of no account. -/
theorem word_perm (h : sources.Perm sources') (hscopes : (sources.map ConfigSource.scope).Nodup) :
    word select (builtinSource :: sources) = word select (builtinSource :: sources') := by
  have hpick : Pick.pick outranks (sources.filterMap (overrides select)) =
      Pick.pick outranks (sources'.filterMap (overrides select)) := by
    refine Pick.pick_perm outranks_trans outranks_keep (h.filterMap _) fun x hx y hy hne ↦ ?_
    obtain ⟨t, ht, hxt⟩ := List.mem_filterMap.mp hx
    obtain ⟨u, hu, hyu⟩ := List.mem_filterMap.mp hy
    have hmeasure : x.measure ≠ y.measure := fun heq ↦ by
      have hscope := ConfigScope.eq_of_overrideRank (overrides_eq_some_iff.mp hxt).1
        (heq ▸ (overrides_eq_some_iff.mp hyu).1)
      obtain rfl := List.inj_on_of_nodup_map hscopes ht hu hscope
      exact hne (Option.some.inj (hxt.symm.trans hyu))
    rw [outranks_iff, outranks_iff]
    omega
  have hword : ∀ l, word select (builtinSource :: l) = (Pick.better outranks
      (Pick.pick outranks ([builtinSource].filterMap (overrides select)))
      (Pick.pick outranks (l.filterMap (overrides select)))).map Best.resolved := fun l ↦ by
    rw [word, ← List.singleton_append, List.filterMap_append,
      Pick.pick_append outranks_trans outranks_keep]
  rw [hword, hword, hpick]

end Word

/-! ## The configuration as a whole -/

/-- An authority value is the last word on it, cut down to its ceiling. -/
def IsClamped {α : Type} [LinearOrder α] (want : ConfigDoc → Option α) (all : List ConfigSource)
    (value ceiling : α) : Prop :=
  ∃ d, HasLastWord want all d ∧ value = min d.value ceiling

/-- Every value is as its rule says: an authority value no looser than any ceiling, the denies
exactly those of the sources, each once, and every other value that of the last word on it. -/
structure Conforms (sources : List ConfigSource) (r : ResolvedConfig) : Prop where
  profile : ∀ s ∈ sources, ∀ max, s.config.maxProfile = some max → r.permissionProfile.value ≤ max
  isolation : ∀ s ∈ sources, ∀ max, s.config.maxIsolation = some max → r.isolation.value ≤ max
  network : ∀ s ∈ sources, ∀ allowed, s.config.networkAllowed = some allowed →
    r.network.value ≤ allowed
  deny : ∀ path, path ∈ r.deny.value ↔ ∃ s ∈ sources, path ∈ s.config.deny.getD []
  deny_nodup : r.deny.value.Nodup
  ordinary : ∀ k ∈ settings, HasLastWord k.select (builtinSource :: sources) (k.get r)
  profile_clamped : IsClamped ConfigDoc.permissionProfile (builtinSource :: sources)
    r.permissionProfile.value r.maxProfile.value
  isolation_clamped : IsClamped ConfigDoc.isolation (builtinSource :: sources)
    r.isolation.value r.maxIsolation.value
  network_clamped : IsClamped ConfigDoc.network (builtinSource :: sources)
    r.network.value r.networkAllowed.value

/-- No ceiling is looser and no deny is gone. -/
structure Narrows (r r' : ResolvedConfig) : Prop where
  maxProfile : r'.maxProfile.value ≤ r.maxProfile.value
  maxIsolation : r'.maxIsolation.value ≤ r.maxIsolation.value
  networkAllowed : r'.networkAllowed.value ≤ r.networkAllowed.value
  deny : r.deny.value ⊆ r'.deny.value

/-- All values are the same, and the denies are as a set. -/
structure SameValues (r r' : ResolvedConfig) : Prop where
  ordinary : ∀ k ∈ settings, (k.get r).value = (k.get r').value
  profile : r.permissionProfile.value = r'.permissionProfile.value
  isolation : r.isolation.value = r'.isolation.value
  network : r.network.value = r'.network.value
  maxProfile : r.maxProfile.value = r'.maxProfile.value
  maxIsolation : r.maxIsolation.value = r'.maxIsolation.value
  networkAllowed : r.networkAllowed.value = r'.networkAllowed.value
  deny : r.deny.value.Perm r'.deny.value

section Whole

variable {all all' sources sources' : List ConfigSource} {r r' : ResolvedConfig}

theorem Key.Settles.le_cap {α : Type} [LinearOrder α] {k : Key α} {value ceiling max : α}
    {s : ConfigSource} (h : k.Settles all value ceiling) (hs : s ∈ all)
    (hcap : k.cap s.config = some max) : value ≤ max := by
  obtain ⟨d, -, rfl⟩ := h.value
  exact (min_le_right d ceiling).trans (Key.capped_le_of_mem h.capped hs hcap)

theorem Key.Settles.isClamped {α : Type} [LinearOrder α] {k : Key α} {value ceiling : α}
    (h : k.Settles all value ceiling) : IsClamped k.want all value ceiling := by
  obtain ⟨d, hd, rfl⟩ := h.value
  rw [Key.desired_eq] at hd
  obtain ⟨w, hw, rfl⟩ := Option.map_eq_some_iff.mp hd
  exact ⟨w, hasLastWord_of_word hw, rfl⟩

/-- The same wish under the same ceilings settles the same. -/
theorem Key.Settles.congr {α : Type} [LinearOrder α] {k : Key α} {value ceiling value' ceiling' : α}
    (h : k.Settles all value ceiling) (h' : k.Settles all' value' ceiling')
    (hsub : all ⊆ all') (hsub' : all' ⊆ all) (hwant : word k.want all = word k.want all') :
    value = value' ∧ ceiling = ceiling' := by
  obtain rfl : ceiling = ceiling' :=
    le_antisymm (Key.capped_le hsub' h'.capped h.capped) (Key.capped_le hsub h.capped h'.capped)
  obtain ⟨d, hd, rfl⟩ := h.value
  obtain ⟨d', hd', rfl⟩ := h'.value
  rw [Key.desired_eq, hwant, ← Key.desired_eq] at hd
  obtain rfl := Option.some.inj (hd.symm.trans hd')
  exact ⟨rfl, rfl⟩

theorem nodup_resolveDeny (all : List ConfigSource) : (resolveDeny all).value.Nodup := by
  have h : ((resolveDeny all).value.map id).Nodup := Keyed.nodup_map_firsts [] _
  rwa [List.map_id] at h

theorem Resolves.conforms (h : Resolves (builtinSource :: sources) r) : Conforms sources r where
  profile := fun _ hs _ hmax ↦ h.profile.le_cap (List.mem_cons_of_mem _ hs) hmax
  isolation := fun _ hs _ hmax ↦ h.isolation.le_cap (List.mem_cons_of_mem _ hs) hmax
  network := fun _ hs _ hmax ↦ h.network.le_cap (List.mem_cons_of_mem _ hs) hmax
  deny := fun path ↦ by
    rw [h.deny, mem_resolveDeny_iff, List.exists_mem_cons_iff]
    exact or_iff_right List.not_mem_nil
  deny_nodup := by
    rw [h.deny]
    exact nodup_resolveDeny _
  ordinary := fun k hk ↦ hasLastWord_of_word (h.ordinary k hk)
  profile_clamped := h.profile.isClamped
  isolation_clamped := h.isolation.isClamped
  network_clamped := h.network.isClamped

theorem Resolves.narrows (h : Resolves all r) (h' : Resolves all' r') (hsub : all ⊆ all') :
    Narrows r r' where
  maxProfile := Key.capped_le hsub h.profile.capped h'.profile.capped
  maxIsolation := Key.capped_le hsub h.isolation.capped h'.isolation.capped
  networkAllowed := Key.capped_le hsub h.network.capped h'.network.capped
  deny := fun path hpath ↦ by
    rw [h.deny, mem_resolveDeny_iff] at hpath
    obtain ⟨s, hs, hp⟩ := hpath
    rw [h'.deny, mem_resolveDeny_iff]
    exact ⟨s, hsub hs, hp⟩

theorem Resolves.sameValues (h : Resolves (builtinSource :: sources) r)
    (h' : Resolves (builtinSource :: sources') r') (hperm : sources.Perm sources')
    (hscopes : (sources.map ConfigSource.scope).Nodup) : SameValues r r' := by
  have hsub := (hperm.cons builtinSource).subset
  have hsub' := (hperm.cons builtinSource).symm.subset
  obtain ⟨hprofile, hmaxProfile⟩ :=
    h.profile.congr h'.profile hsub hsub' (word_perm hperm hscopes)
  obtain ⟨hisolation, hmaxIsolation⟩ :=
    h.isolation.congr h'.isolation hsub hsub' (word_perm hperm hscopes)
  obtain ⟨hnetwork, hnetworkAllowed⟩ :=
    h.network.congr h'.network hsub hsub' (word_perm hperm hscopes)
  refine ⟨fun k hk ↦ ?_, hprofile, hisolation, hnetwork, hmaxProfile, hmaxIsolation,
    hnetworkAllowed, ?_⟩
  · have hword := h.ordinary k hk
    rw [word_perm hperm hscopes, h'.ordinary k hk] at hword
    exact congrArg Resolved.value (Option.some.inj hword.symm)
  · rw [h.deny, h'.deny]
    exact (List.perm_ext_iff_of_nodup (nodup_resolveDeny _) (nodup_resolveDeny _)).mpr fun path ↦
      mem_resolveDeny_iff.trans
        ((exists_congr fun s ↦ and_congr_left fun _ ↦ (hperm.cons builtinSource).mem_iff).trans
          mem_resolveDeny_iff.symm)

end Whole

/-- **The layers of a configuration.** Every list of sources resolves, and every value is as its
rule says. A source put anywhere loosens no ceiling and takes no deny away. And where every scope is
there once, another order of the sources gives the same values. -/
theorem resolveConfig_layers :
    (∀ sources, ∃ r, resolveConfig sources = .ok r ∧ Conforms sources r) ∧
    (∀ pre post s, ∃ r r', resolveConfig (pre ++ post) = .ok r ∧
      resolveConfig (pre ++ s :: post) = .ok r' ∧ Narrows r r') ∧
    ∀ sources sources' : List ConfigSource, sources.Perm sources' →
      (sources.map ConfigSource.scope).Nodup →
      ∃ r r', resolveConfig sources = .ok r ∧ resolveConfig sources' = .ok r' ∧
        SameValues r r' := by
  refine ⟨fun sources ↦ ?_, fun pre post s ↦ ?_, fun sources sources' hperm hscopes ↦ ?_⟩
  · obtain ⟨r, hr, h⟩ := exists_resolveConfig sources
    exact ⟨r, hr, h.conforms⟩
  · obtain ⟨r, hr, h⟩ := exists_resolveConfig (pre ++ post)
    obtain ⟨r', hr', h'⟩ := exists_resolveConfig (pre ++ s :: post)
    exact ⟨r, r', hr, hr',
      h.narrows h' (List.cons_subset_cons _ (subset_insert pre post s))⟩
  · obtain ⟨r, hr, h⟩ := exists_resolveConfig sources
    obtain ⟨r', hr', h'⟩ := exists_resolveConfig sources'
    exact ⟨r, r', hr, hr', h.sameValues h' hperm hscopes⟩

end QwenHarness.Config
