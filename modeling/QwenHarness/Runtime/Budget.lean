import QwenHarness.Protocol.Domain

/-!
# Budgets and loop health

A turn must always end, and always for a named reason. The tracker counts one turn's model and
tool calls and detects a repeated identical call and a short cycle of distinct calls. A verdict is
the reason to stop, if there is one. Time is an argument.
-/

namespace QwenHarness

structure BudgetLimits where
  maxModelCallsPerTurn : ℕ
  maxToolCallsPerTurn : ℕ
  maxWallMs : ℤ
  /-- Stop after this many rounds in a row without a tool call and without new text. -/
  maxNoProgressRounds : ℕ
  /-- Stop after this many identical calls in a row. -/
  maxRepeatedIdenticalCalls : ℕ
deriving DecidableEq, Repr

def defaultBudget : BudgetLimits where
  maxModelCallsPerTurn := 100
  maxToolCallsPerTurn := 1000
  maxWallMs := 8 * 60 * 60 * 1000
  maxNoProgressRounds := 3
  maxRepeatedIdenticalCalls := 3

def oscillationCycles : ℕ := 3

def maxCycleLen : ℕ := 3

/-- The reason to stop, or nothing. -/
abbrev BudgetVerdict := Option TerminationReason

structure BudgetTracker where
  modelCalls : ℕ
  toolCalls : ℕ
  noProgressRounds : ℕ
  lastCallSignature : Option String
  repeatedCount : ℕ
  recentSignatures : List String
  startMs : ℤ
deriving DecidableEq, Repr

namespace BudgetTracker

def start (nowMs : ℤ) : BudgetTracker where
  modelCalls := 0
  toolCalls := 0
  noProgressRounds := 0
  lastCallSignature := none
  repeatedCount := 0
  recentSignatures := []
  startMs := nowMs

/-- Asked before each model request. -/
def beforeModelCall (limits : BudgetLimits) (nowMs : ℤ) (b : BudgetTracker) :
    BudgetVerdict × BudgetTracker :=
  if limits.maxWallMs ≤ nowMs - b.startMs then (some .timeLimit, b)
  else if limits.maxModelCallsPerTurn ≤ b.modelCalls then (some .modelCallLimit, b)
  else (none, { b with modelCalls := b.modelCalls + 1 })

/-- Asked before each tool call. -/
def beforeToolCall (limits : BudgetLimits) (b : BudgetTracker) : BudgetVerdict × BudgetTracker :=
  if limits.maxToolCallsPerTurn ≤ b.toolCalls then (some .toolCallLimit, b)
  else (none, { b with toolCalls := b.toolCalls + 1 })

/-- Told the outcome of each model round. -/
def afterModelRound (limits : BudgetLimits) (madeProgress : Bool) (b : BudgetTracker) :
    BudgetVerdict × BudgetTracker :=
  if madeProgress then (none, { b with noProgressRounds := 0 })
  else
    let b := { b with noProgressRounds := b.noProgressRounds + 1 }
    if limits.maxNoProgressRounds ≤ b.noProgressRounds then (some .noProgress, b) else (none, b)

/-- Whether the recent calls are repetitions of a fixed cycle of at least two distinct calls. -/
def oscillating (recent : List String) : Bool :=
  ((List.range (maxCycleLen + 1)).drop 2).any fun k ↦
    let need := k * oscillationCycles
    let window := recent.drop (recent.length - need)
    let cycle := window.take k
    decide (need ≤ recent.length) && decide (2 ≤ cycle.dedup.length) &&
      (List.range need).all fun i ↦ decide (window[i]? = cycle[i % k]?)

/-- Told each tool call, by its name and its raw arguments. -/
def observeToolCall (limits : BudgetLimits) (toolName argumentsJson : String) (b : BudgetTracker) :
    BudgetVerdict × BudgetTracker :=
  let signature := toolName ++ "\x00" ++ argumentsJson
  let repeated := decide (b.lastCallSignature = some signature)
  let b := { b with
    lastCallSignature := some signature
    repeatedCount := if repeated then b.repeatedCount + 1 else 1 }
  if repeated && decide (limits.maxRepeatedIdenticalCalls ≤ b.repeatedCount) then
    (some .repeatedIdenticalCalls, b)
  else
    let recent := b.recentSignatures ++ [signature]
    let recent :=
      if maxCycleLen * oscillationCycles < recent.length then recent.drop 1 else recent
    let b := { b with recentSignatures := recent }
    if oscillating recent then (some .oscillation, b) else (none, b)

/-! The model-call count is what bounds a turn: it grows with every model request that is let
through, and none is let through at the limit. -/

variable {limits : BudgetLimits} (b : BudgetTracker)

theorem beforeModelCall_continue {b : BudgetTracker} {nowMs : ℤ}
    (h : (b.beforeModelCall limits nowMs).1 = none) :
    b.modelCalls < limits.maxModelCallsPerTurn ∧
      (b.beforeModelCall limits nowMs).2 = { b with modelCalls := b.modelCalls + 1 } := by
  rw [beforeModelCall] at h ⊢
  split at h
  · cases h
  · split at h
    · cases h
    · rename_i hwall hcalls
      rw [if_neg hwall, if_neg hcalls]
      exact ⟨by omega, rfl⟩

theorem beforeModelCall_stop {b : BudgetTracker} {nowMs : ℤ} {reason : TerminationReason}
    (h : (b.beforeModelCall limits nowMs).1 = some reason) :
    (b.beforeModelCall limits nowMs).2 = b := by
  rw [beforeModelCall] at h ⊢
  split
  · rfl
  · split
    · rfl
    · rename_i hwall hcalls
      rw [if_neg hwall, if_neg hcalls] at h
      cases h

@[simp] theorem toolCalls_beforeModelCall {nowMs : ℤ} :
    (b.beforeModelCall limits nowMs).2.toolCalls = b.toolCalls := by
  rw [beforeModelCall]
  split_ifs <;> rfl

@[simp] theorem modelCalls_beforeToolCall :
    (b.beforeToolCall limits).2.modelCalls = b.modelCalls := by
  rw [beforeToolCall]
  split <;> rfl

@[simp] theorem modelCalls_observeToolCall {toolName argumentsJson : String} :
    (b.observeToolCall limits toolName argumentsJson).2.modelCalls = b.modelCalls := by
  simp only [observeToolCall]
  split_ifs <;> rfl

@[simp] theorem toolCalls_observeToolCall {toolName argumentsJson : String} :
    (b.observeToolCall limits toolName argumentsJson).2.toolCalls = b.toolCalls := by
  simp only [observeToolCall]
  split_ifs <;> rfl

end BudgetTracker

end QwenHarness
