import QwenHarness.Config.Resolve

/-!
# What a list of sources resolves to

An ordinary value is what the sources want, by precedence, and whose word it is. An authority value
is what they want cut down to the least value one of them caps it at. The built-in layer sets every
value, so every list of sources resolves.
-/

namespace QwenHarness.Config

/-! ## The loops as scans -/

section Scans

variable {α : Type} (select : ConfigDoc → Option α) (tightnessOf : α → ℕ)

/-- What a source contributes to an override. -/
def overrides (source : ConfigSource) : Option (Best α) :=
  source.scope.overrideRank.bind fun rank ↦
    (select source.config).map fun value ↦ ⟨value, source, rank⟩

/-- What a source contributes to a ceiling. -/
def caps (source : ConfigSource) : Option (Best α) :=
  (select source.config).map fun value ↦ ⟨value, source, tightnessOf value⟩

def outranks (b x : Best α) : Bool := decide (b.measure ≤ x.measure)

def tighter (b x : Best α) : Bool := decide (x.measure < b.measure)

variable {select tightnessOf} {sources : List ConfigSource} {key : String}

theorem outranks_iff {b x : Best α} : outranks b x ↔ b.measure ≤ x.measure := decide_eq_true_iff

theorem tighter_iff {b x : Best α} : tighter b x ↔ x.measure < b.measure := decide_eq_true_iff

theorem outranks_trans (a b c : Best α) (hab : outranks a b) (hbc : outranks b c) :
    outranks a c :=
  outranks_iff.mpr ((outranks_iff.mp hab).trans (outranks_iff.mp hbc))

theorem outranks_keep (a b c : Best α) (hab : ¬ outranks a b) (hbc : ¬ outranks b c) :
    ¬ outranks a c := by
  rw [outranks_iff, not_le] at hab hbc ⊢
  exact hbc.trans hab

theorem tighter_trans (a b c : Best α) (hab : tighter a b) (hbc : tighter b c) : tighter a c :=
  tighter_iff.mpr ((tighter_iff.mp hbc).trans (tighter_iff.mp hab))

theorem tighter_keep (a b c : Best α) (hab : ¬ tighter a b) (hbc : ¬ tighter b c) :
    ¬ tighter a c := by
  rw [tighter_iff, not_lt] at hab hbc ⊢
  exact hab.trans hbc

theorem resolveOverride_eq (key : String) : resolveOverride sources key select =
    match Pick.pick outranks (sources.filterMap (overrides select)) with
    | none => .error ⟨s!"no source (not even builtin) provides '{key}'"⟩
    | some b => .ok b.resolved := by
  rw [resolveOverride, Pick.pick, List.foldl_filterMap]
  congr 3
  funext best source
  rw [overrides]
  rcases source.scope.overrideRank with - | rank
  · rfl
  · rcases hs : select source.config with - | value
    · rfl
    · cases best <;> simp [Pick.better, outranks]

theorem resolveCeiling_eq (key : String) : resolveCeiling sources key select tightnessOf =
    match Pick.pick tighter (sources.filterMap (caps select tightnessOf)) with
    | none => .error ⟨s!"no source (not even builtin) provides ceiling '{key}'"⟩
    | some b => .ok b.resolved := by
  rw [resolveCeiling, Pick.pick, List.foldl_filterMap]
  congr 3
  funext best source
  rw [caps]
  rcases hs : select source.config with - | value
  · rfl
  · cases best <;> simp [Pick.better, tighter]

end Scans

/-! ## One value under its ceiling -/

/-- An authority value: what a document wants of it, what it caps it at, and how much a value
permits. -/
structure Key (α : Type) [LinearOrder α] where
  want : ConfigDoc → Option α
  cap : ConfigDoc → Option α
  tightness : α → ℕ
  strictMono : StrictMono tightness

def profileKey : Key PermissionProfile :=
  ⟨ConfigDoc.permissionProfile, ConfigDoc.maxProfile, PermissionProfile.rank, fun _ _ h ↦ h⟩

def isolationKey : Key IsolationMode :=
  ⟨ConfigDoc.isolation, ConfigDoc.maxIsolation, IsolationMode.rank, fun _ _ h ↦ h⟩

def networkKey : Key Bool :=
  ⟨ConfigDoc.network, ConfigDoc.networkAllowed, boolTightness, by decide⟩

namespace Key

variable {α : Type} [LinearOrder α] (k : Key α) {all : List ConfigSource} {s : ConfigSource}
  {value ceiling ceiling' : α}

/-- The value the sources want, by precedence. -/
def desired (all : List ConfigSource) : Option α :=
  (Pick.pick outranks (all.filterMap (overrides k.want))).map Best.value

/-- The least value a source caps it at. -/
def capped (all : List ConfigSource) : Option α :=
  (Pick.pick tighter (all.filterMap (caps k.cap k.tightness))).map Best.value

/-- The value is the one the sources want, cut down to their ceiling. -/
structure Settles (all : List ConfigSource) (value ceiling : α) : Prop where
  capped : k.capped all = some ceiling
  value : ∃ d, k.desired all = some d ∧ value = min d ceiling

variable {k}

/-- More sources make a ceiling no higher. -/
theorem capped_le {all' : List ConfigSource} (hsub : all ⊆ all') (h : k.capped all = some ceiling)
    (h' : k.capped all' = some ceiling') : ceiling' ≤ ceiling := by
  obtain ⟨b, hb, rfl⟩ := Option.map_eq_some_iff.mp h
  obtain ⟨b', hb', rfl⟩ := Option.map_eq_some_iff.mp h'
  have hmeasure : ∀ {sources : List ConfigSource} {c : Best α},
      c ∈ sources.filterMap (caps k.cap k.tightness) → c.measure = k.tightness c.value := by
    intro sources c hc
    obtain ⟨t, -, ht⟩ := List.mem_filterMap.mp hc
    obtain ⟨v, -, rfl⟩ := Option.map_eq_some_iff.mp ht
    rfl
  have hmem := Pick.pick_mem hb
  have hmem' : b ∈ all'.filterMap (caps k.cap k.tightness) := by
    obtain ⟨t, ht, htb⟩ := List.mem_filterMap.mp hmem
    exact List.mem_filterMap.mpr ⟨t, hsub ht, htb⟩
  have hle : b'.measure ≤ b.measure := by
    rcases Pick.replaces_of_pick tighter_trans tighter_keep hb' hmem' with h | h
    · exact (tighter_iff.mp h).le
    · exact not_lt.mp fun hlt ↦ h (tighter_iff.mpr hlt)
  rw [hmeasure hmem, hmeasure (Pick.pick_mem hb')] at hle
  exact k.strictMono.le_iff_le.mp hle

/-- No source caps the value below the ceiling. -/
theorem capped_le_of_mem (h : k.capped all = some ceiling) (hs : s ∈ all)
    (hcap : k.cap s.config = some value) : ceiling ≤ value := by
  have hone : k.capped [s] = some value := by
    rw [capped, List.filterMap_cons, caps, hcap]
    rfl
  exact capped_le (fun t ht ↦ List.mem_singleton.mp ht ▸ hs) hone h

end Key

/-! ## Resolution always succeeds -/

section Total

variable {α β ε : Type} {sources : List ConfigSource} {select : ConfigDoc → Option α}
  {tightnessOf : α → ℕ}

theorem exists_bind_ok {x : Except ε α} {f : α → Except ε β} {P : α → Prop} {Q : β → Prop}
    (hx : ∃ a, x = .ok a ∧ P a) (hf : ∀ a, P a → ∃ b, f a = .ok b ∧ Q b) :
    ∃ b, x >>= f = .ok b ∧ Q b := by
  obtain ⟨a, rfl, ha⟩ := hx
  exact hf a ha

/-- What the sources want, by precedence, and whose word it is. -/
def word (select : ConfigDoc → Option α) (all : List ConfigSource) : Option (Resolved α) :=
  (Pick.pick outranks (all.filterMap (overrides select))).map Best.resolved

theorem Key.desired_eq [LinearOrder α] (k : Key α) (all : List ConfigSource) :
    k.desired all = (word k.want all).map Resolved.value := by
  rw [Key.desired, word, Option.map_map]
  rfl

/-- A value that has a default is resolved. -/
theorem exists_resolveOverride (hdefault : select builtinDefaults ≠ none) (key : String) :
    ∃ r, resolveOverride (builtinSource :: sources) key select = .ok r ∧
      word select (builtinSource :: sources) = some r := by
  obtain ⟨v, hv⟩ := Option.ne_none_iff_exists'.mp hdefault
  have hmem : (⟨v, builtinSource, 0⟩ : Best α) ∈
      (builtinSource :: sources).filterMap (overrides select) :=
    List.mem_filterMap.mpr ⟨builtinSource, List.mem_cons_self, by
      change (select builtinDefaults).map _ = _
      rw [hv]
      rfl⟩
  obtain ⟨b, -, hb⟩ := Pick.exists_pick outranks hmem
  exact ⟨b.resolved, by rw [resolveOverride_eq, hb], by rw [word, hb]; rfl⟩

theorem exists_resolveCeiling (hdefault : select builtinDefaults ≠ none) (key : String) :
    ∃ r, resolveCeiling (builtinSource :: sources) key select tightnessOf = .ok r ∧
      (Pick.pick tighter ((builtinSource :: sources).filterMap (caps select tightnessOf))).map
        Best.value = some r.value := by
  obtain ⟨v, hv⟩ := Option.ne_none_iff_exists'.mp hdefault
  have hmem : (⟨v, builtinSource, tightnessOf v⟩ : Best α) ∈
      (builtinSource :: sources).filterMap (caps select tightnessOf) :=
    List.mem_filterMap.mpr ⟨builtinSource, List.mem_cons_self, by
      change (select builtinDefaults).map _ = _
      rw [hv]
      rfl⟩
  obtain ⟨b, -, hb⟩ := Pick.exists_pick tighter hmem
  exact ⟨b.resolved, by rw [resolveCeiling_eq, hb], by rw [hb]; rfl⟩

end Total

theorem clamp_value {α : Type} [LinearOrder α] {tightnessOf : α → ℕ}
    (hmono : StrictMono tightnessOf) (desired ceiling : Resolved α) :
    (clamp desired ceiling tightnessOf).value = min desired.value ceiling.value := by
  unfold clamp
  split
  · next h => exact (min_eq_right (hmono.lt_iff_lt.mp h).le).symm
  · next h => exact (min_eq_left (hmono.le_iff_le.mp (not_lt.mp h))).symm

/-- The network is an `and`, which is the same as being cut down to a ceiling. -/
theorem network_value (desired ceiling : Resolved Bool) :
    (if desired.value && !ceiling.value then ⟨false, ceiling.source⟩
      else ⟨desired.value && ceiling.value, desired.source⟩ : Resolved Bool).value =
      min desired.value ceiling.value := by
  rcases desired with ⟨d, -⟩
  rcases ceiling with ⟨c, -⟩
  cases d <;> cases c <;> rfl

/-! ## What is resolved to what -/

/-- An ordinary value: what a document sets it to, and where a resolved configuration has it. -/
structure Setting (β : Type) where
  Value : Type
  select : ConfigDoc → Option Value
  get : β → Resolved Value

def budget (select : Budgets → Option ℕ) (get : ResolvedBudgets → Resolved ℕ) :
    Setting ResolvedBudgets :=
  ⟨ℕ, fun d ↦ d.budgets.bind select, get⟩

def budgets : List (Setting ResolvedBudgets) := [
  budget Budgets.turnsPerGoal ResolvedBudgets.turnsPerGoal,
  budget Budgets.modelCallsPerTurn ResolvedBudgets.modelCallsPerTurn,
  budget Budgets.toolCallsPerTurn ResolvedBudgets.toolCallsPerTurn,
  budget Budgets.wallTimeMsPerTurn ResolvedBudgets.wallTimeMsPerTurn,
  budget Budgets.activeChildAgents ResolvedBudgets.activeChildAgents,
  budget Budgets.childDepth ResolvedBudgets.childDepth,
  budget Budgets.safeReadConcurrency ResolvedBudgets.safeReadConcurrency,
  budget Budgets.retryAttempts ResolvedBudgets.retryAttempts]

def outputLimit (select : ToolOutput → Option ℕ) (get : ResolvedToolOutput → Resolved ℕ) :
    Setting ResolvedToolOutput :=
  ⟨ℕ, fun d ↦ d.toolOutput.bind select, get⟩

def outputLimits : List (Setting ResolvedToolOutput) := [
  outputLimit ToolOutput.modelPreviewBytes ResolvedToolOutput.modelPreviewBytes,
  outputLimit ToolOutput.tuiInlineBytes ResolvedToolOutput.tuiInlineBytes,
  outputLimit ToolOutput.backgroundWarnBytes ResolvedToolOutput.backgroundWarnBytes,
  outputLimit ToolOutput.backgroundHardStopBytes ResolvedToolOutput.backgroundHardStopBytes,
  outputLimit ToolOutput.mcpInlineTokens ResolvedToolOutput.mcpInlineTokens,
  outputLimit ToolOutput.mcpDurableChars ResolvedToolOutput.mcpDurableChars]

/-- The same setting as part of something larger. -/
def Setting.within {β γ : Type} (k : Setting β) (part : γ → β) : Setting γ :=
  ⟨k.Value, k.select, fun r ↦ k.get (part r)⟩

/-- Every value that has no ceiling. -/
def settings : List (Setting ResolvedConfig) := [
  ⟨String, ConfigDoc.model, ResolvedConfig.model⟩,
  ⟨String, ConfigDoc.baseUrl, ResolvedConfig.baseUrl⟩,
  ⟨String, ConfigDoc.apiKeyEnv, ResolvedConfig.apiKeyEnv⟩,
  ⟨ReasoningEffort, ConfigDoc.reasoningEffort, ResolvedConfig.reasoningEffort⟩,
  ⟨Transport, ConfigDoc.transport, ResolvedConfig.transport⟩,
  ⟨Bool, fun d ↦ d.telemetry.map Telemetry.enabled, ResolvedConfig.telemetry⟩,
  ⟨TelemetryLevel, fun d ↦ d.telemetry.bind Telemetry.level, ResolvedConfig.telemetryLevel⟩,
  ⟨ℕ, fun d ↦ d.telemetry.bind Telemetry.retentionDays, ResolvedConfig.telemetryRetentionDays⟩] ++
  budgets.map (Setting.within · ResolvedConfig.budgets) ++
  outputLimits.map (Setting.within · ResolvedConfig.toolOutput)

/-- Every value of a list of settings is what the sources want, by precedence. -/
def Follows {β : Type} (ks : List (Setting β)) (all : List ConfigSource) (r : β) : Prop :=
  ∀ k ∈ ks, word k.select all = some (k.get r)

/-- What a resolved configuration is made of. -/
structure Resolves (all : List ConfigSource) (r : ResolvedConfig) : Prop where
  ordinary : Follows settings all r
  profile : profileKey.Settles all r.permissionProfile.value r.maxProfile.value
  isolation : isolationKey.Settles all r.isolation.value r.maxIsolation.value
  network : networkKey.Settles all r.network.value r.networkAllowed.value
  deny : r.deny = resolveDeny all

section Follows

variable {β : Type} {sources all : List ConfigSource}

theorem follows_nil {r : β} : Follows [] all r := fun _ h ↦ absurd h List.not_mem_nil

theorem follows_cons {k : Setting β} {ks : List (Setting β)} {r : β}
    (h : word k.select all = some (k.get r)) (hs : Follows ks all r) : Follows (k :: ks) all r :=
  List.forall_mem_cons.mpr ⟨h, hs⟩

theorem follows_append {ks ks' : List (Setting β)} {r : β} (h : Follows ks all r)
    (h' : Follows ks' all r) : Follows (ks ++ ks') all r :=
  List.forall_mem_append.mpr ⟨h, h'⟩

theorem Follows.within {γ : Type} {ks : List (Setting β)} {part : γ → β} {r : γ}
    (h : Follows ks all (part r)) : Follows (ks.map (Setting.within · part)) all r :=
  List.forall_mem_map.mpr h

theorem exists_resolveBudgets : ∃ r, resolveBudgets (builtinSource :: sources) = .ok r ∧
    Follows budgets (builtinSource :: sources) r := by
  unfold resolveBudgets
  iterate 8 refine exists_bind_ok (exists_resolveOverride (by decide) _) fun _ _ ↦ ?_
  refine ⟨_, rfl, ?_⟩
  iterate 8 refine follows_cons (by assumption) ?_
  exact follows_nil

theorem exists_resolveToolOutput : ∃ r, resolveToolOutput (builtinSource :: sources) = .ok r ∧
    Follows outputLimits (builtinSource :: sources) r := by
  unfold resolveToolOutput
  iterate 6 refine exists_bind_ok (exists_resolveOverride (by decide) _) fun _ _ ↦ ?_
  refine ⟨_, rfl, ?_⟩
  iterate 6 refine follows_cons (by assumption) ?_
  exact follows_nil

end Follows

/-- **Every list of sources resolves**, since the built-in layer sets every value. -/
theorem exists_resolveConfig (sources : List ConfigSource) :
    ∃ r, resolveConfig sources = .ok r ∧ Resolves (builtinSource :: sources) r := by
  unfold resolveConfig
  refine exists_bind_ok (exists_resolveCeiling (by decide) _) fun maxProfile hmp ↦ ?_
  refine exists_bind_ok (exists_resolveCeiling (by decide) _) fun maxIsolation hmi ↦ ?_
  refine exists_bind_ok (exists_resolveCeiling (by decide) _) fun networkAllowed hna ↦ ?_
  refine exists_bind_ok (exists_resolveOverride (by decide) _) fun profile hp ↦ ?_
  refine exists_bind_ok (exists_resolveOverride (by decide) _) fun isolation hi ↦ ?_
  refine exists_bind_ok (exists_resolveOverride (by decide) _) fun network hn ↦ ?_
  iterate 8 refine exists_bind_ok (exists_resolveOverride (by decide) _) fun _ _ ↦ ?_
  refine exists_bind_ok exists_resolveBudgets fun budgets hbudgets ↦ ?_
  refine exists_bind_ok exists_resolveToolOutput fun limits hlimits ↦ ⟨_, rfl, ?_, ?_, ?_, ?_, rfl⟩
  · refine follows_append (follows_append ?_ (Follows.within hbudgets)) (Follows.within hlimits)
    iterate 8 refine follows_cons (by assumption) ?_
    exact follows_nil
  · refine ⟨hmp, profile.value, ?_, clamp_value profileKey.strictMono _ _⟩
    rw [Key.desired_eq]
    exact congrArg _ hp
  · refine ⟨hmi, isolation.value, ?_, clamp_value isolationKey.strictMono _ _⟩
    rw [Key.desired_eq]
    exact congrArg _ hi
  · refine ⟨hna, network.value, ?_, network_value network networkAllowed⟩
    rw [Key.desired_eq]
    exact congrArg _ hn

end QwenHarness.Config
