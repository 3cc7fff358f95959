import QwenHarness.Protocol.Domain

/-!
# The turn state machine

Every transition is checked against `turnTransitions`, and an illegal one throws. The machine owns
no effects: it records where the turn is, and the caller persists that.
-/

namespace QwenHarness

/-! ## What can be thrown -/

inductive SideEffectCertainty where
  | none
  | notStarted
  | knownComplete
  | knownFailed
  | indeterminate
deriving DecidableEq, Repr

/-- An error of the harness itself. The runtime branches on these fields and reports the
message. -/
structure HarnessError where
  message : String
  retryable : Bool
  userActionRequired : Bool
  sideEffectCertainty : SideEffectCertainty
  visibleOutputEmitted : Bool
  retryAfterMs : Option ℤ
deriving DecidableEq, Repr

/-- What a call may throw: a typed error, or anything else, by its text. -/
inductive Thrown where
  | harness (error : HarnessError)
  | other (message : String)
deriving DecidableEq, Repr

/-- `e instanceof Error ? e.message : String(e)`. -/
def Thrown.message : Thrown → String
  | .harness error => error.message
  | .other message => message

/-! ## The machine -/

structure TurnMachine where
  state : TurnState
  reason : Option TerminationReason
  /-- The path the turn took, oldest first. -/
  history : List TurnState
deriving DecidableEq, Repr

namespace TurnMachine

/-- A fresh turn is preparing; a restored one starts where the log says it was. -/
def start (restoredState : TurnState := .preparing) : TurnMachine where
  state := restoredState
  reason := none
  history := [restoredState]

def isTerminal (m : TurnMachine) : Bool := isTerminalTurnState m.state

def transition (m : TurnMachine) (target : TurnState) : Except Thrown TurnMachine :=
  if m.isTerminal then
    .error (.other s!"turn is already terminal ({m.state.name}); cannot transition to {target.name}")
  else if canTransition m.state target = false then
    .error (.other s!"illegal turn transition: {m.state.name} -> {target.name}")
  else
    .ok { m with state := target, history := m.history ++ [target] }

/-- Move to a terminal state with a reason. -/
def terminate (m : TurnMachine) (state : TurnState) (reason : TerminationReason) :
    Except Thrown TurnMachine :=
  (m.transition state).map fun m ↦ { m with reason := some reason }

variable {m m' : TurnMachine} {target : TurnState}

/-- A transition succeeds exactly when the table has it: a terminal state has none. -/
theorem transition_eq_ok_iff :
    m.transition target = .ok m' ↔ canTransition m.state target = true ∧
      m' = { m with state := target, history := m.history ++ [target] } := by
  rw [transition]
  split
  · rename_i h
    have hnone : turnTransitions m.state = [] := (isTerminalTurnState_iff _).mp h
    simp [canTransition, hnone]
  · split
    · rename_i h
      simp [h]
    · rename_i h
      rw [Bool.not_eq_false] at h
      simp [h, eq_comm]

theorem transition_eq_error (h : canTransition m.state target = false) :
    ∃ e, m.transition target = .error e := by
  cases ht : m.transition target with
  | error e => exact ⟨e, rfl⟩
  | ok m' => rw [(transition_eq_ok_iff.mp ht).1] at h; cases h

theorem transition_eq_ok (h : canTransition m.state target = true) :
    m.transition target = .ok { m with state := target, history := m.history ++ [target] } :=
  transition_eq_ok_iff.mpr ⟨h, rfl⟩

end TurnMachine

end QwenHarness
