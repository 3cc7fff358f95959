import Mathlib.Algebra.Group.Int.Defs
import QwenHarness.Protocol.Domain
import QwenHarness.Runtime.TurnMachine
import QwenHarness.Table.Sent

/-!
# One model round

The events a provider streams, their fold into the outcome of a round, and the rules of when a
failed request may be tried again.
-/

namespace QwenHarness

/-! ## The conversation -/

inductive Role where
  | user
  | assistant
deriving DecidableEq, Repr

/-- One entry of the conversation a model is sent. -/
inductive ModelInputItem where
  | message (role : Role) (text : String)
  | functionCall (callId name argumentsJson : String)
  | functionOutput (callId name output : String)
deriving DecidableEq, Repr

/-- A tool as the model is told about it. -/
structure ToolDefinition where
  name : String
  description : String
  parameters : Codec.Value
deriving Repr

structure ModelRequest where
  model : String
  instructions : String
  input : List ModelInputItem
  tools : List ToolDefinition
deriving Repr

/-! ## The stream and its fold -/

inductive FinishReason where
  | stop
  | toolCalls
  | length
  | contentFilter
  | unknown
deriving DecidableEq, Repr

def FinishReason.name : FinishReason → String
  | .stop => "stop"
  | .toolCalls => "tool-calls"
  | .length => "length"
  | .contentFilter => "content-filter"
  | .unknown => "unknown"

/-- A complete call of a tool, as the model made it. -/
structure NormalizedToolCall where
  itemId : String
  callId : String
  toolName : String
  argumentsJson : String
  arguments : Arguments
deriving Repr

inductive ProviderStreamEvent where
  | requestId (requestId : String)
  | textDelta (itemId delta : String)
  | textDone (itemId text : String)
  | reasoningSummaryDelta (itemId delta : String)
  | reasoningSummaryDone (itemId summary : String)
  | reasoningStatus (reasoningTokens : Option ℤ)
  | toolCallBegin (itemId callId toolName : String)
  | toolCallComplete (call : NormalizedToolCall)
  | usage (usage : UsageItem)
  | error (error : HarnessError)
  | done (finishReason : FinishReason)
deriving Repr

structure NormalizedRound where
  assistantText : String
  reasoningSummary : Option String
  reasoningOccurred : Bool
  toolCalls : List NormalizedToolCall
  usage : Option UsageItem
  requestId : Option String
  finishReason : Option FinishReason
  errors : List HarnessError
deriving Repr

namespace NormalizedRound

def empty : NormalizedRound where
  assistantText := ""
  reasoningSummary := none
  reasoningOccurred := false
  toolCalls := []
  usage := none
  requestId := none
  finishReason := none
  errors := []

/-- Take one event into account. -/
def accept (r : NormalizedRound) : ProviderStreamEvent → NormalizedRound
  | .requestId requestId => { r with requestId := some requestId }
  | .textDelta _ delta => { r with assistantText := r.assistantText ++ delta }
  -- The done event carries the authoritative full text.
  | .textDone _ text => { r with assistantText := text }
  | .reasoningSummaryDelta _ delta =>
    { r with reasoningSummary := some (r.reasoningSummary.getD "" ++ delta) }
  | .reasoningSummaryDone _ summary => { r with reasoningSummary := some summary }
  | .reasoningStatus _ => { r with reasoningOccurred := true }
  -- A call is only real once its arguments have parsed.
  | .toolCallBegin _ _ _ => r
  | .toolCallComplete call => { r with toolCalls := r.toolCalls ++ [call] }
  | .usage usage => { r with usage := some usage }
  | .error error => { r with errors := r.errors ++ [error] }
  | .done finishReason => { r with finishReason := some finishReason }

def finish (r : NormalizedRound) : NormalizedRound :=
  { r with reasoningOccurred := r.reasoningOccurred || r.reasoningSummary.isSome }

end NormalizedRound

/-- Fold a whole stream into one round. -/
def normalizeRound (events : List ProviderStreamEvent) : NormalizedRound :=
  (events.foldl NormalizedRound.accept .empty).finish

/-! ## Retry -/

structure RetryPolicy where
  /-- Attempts in all, the first included. -/
  maxAttempts : ℕ
  maxElapsedMs : ℤ
  baseDelayMs : ℤ
  maxDelayMs : ℤ
  honorServerHint : Bool
deriving DecidableEq, Repr

def defaultRetryPolicy : RetryPolicy where
  maxAttempts := 10
  maxElapsedMs := 5 * 60 * 1000
  baseDelayMs := 500
  maxDelayMs := 30000
  honorServerHint := true

/-- The exponential bound of a delay, before jitter. -/
def backoffBoundMs (policy : RetryPolicy) (attempt : ℕ) : ℤ :=
  min policy.maxDelayMs (policy.baseDelayMs * 2 ^ attempt)

/-- A delay between zero and the bound. Throws when the random source is out of range. -/
def fullJitterDelayMs (policy : RetryPolicy) (attempt : ℕ) (r : ℚ) : Except Thrown ℤ :=
  if r < 0 ∨ 1 ≤ r then .error (.other "rng() must return a float in [0, 1)")
  else .ok (r * (backoffBoundMs policy attempt + 1)).floor

inductive RetryRefusal where
  | notRetryable
  | userActionRequired
  | visibleOutputEmitted
  | sideEffectUncertain
  | attemptsExhausted
  | timeExhausted
deriving DecidableEq, Repr

/-- The delay before the next attempt, or why there is none. -/
abbrev RetryDecision := Except RetryRefusal ℤ

/-- Decide whether a failed attempt may be tried again. The outer error is what the random source
threw. -/
def decideRetry (error : HarnessError) (attempt : ℕ) (elapsedMs : ℤ) (rng : ℚ)
    (policy : RetryPolicy) : Except Thrown RetryDecision :=
  if error.retryable = false then .ok (.error .notRetryable)
  else if error.userActionRequired then .ok (.error .userActionRequired)
  else if error.visibleOutputEmitted then .ok (.error .visibleOutputEmitted)
  else if error.sideEffectCertainty ≠ .none ∧ error.sideEffectCertainty ≠ .notStarted then
    .ok (.error .sideEffectUncertain)
  else if policy.maxAttempts ≤ attempt then .ok (.error .attemptsExhausted)
  else if policy.maxElapsedMs ≤ elapsedMs then .ok (.error .timeExhausted)
  else
    (fullJitterDelayMs policy (attempt - 1) rng).map fun jittered ↦
      let delayMs := if policy.honorServerHint then error.retryAfterMs.getD jittered else jittered
      if policy.maxElapsedMs < elapsedMs + delayMs then .error .timeExhausted else .ok delayMs

/-- The policy is asked for another attempt only below its limit. -/
theorem lt_of_decideRetry {error : HarnessError} {attempt : ℕ} {elapsedMs delayMs : ℤ} {rng : ℚ}
    {policy : RetryPolicy}
    (h : decideRetry error attempt elapsedMs rng policy = .ok (.ok delayMs)) :
    attempt < policy.maxAttempts := by
  by_contra hle
  rw [decideRetry, if_pos (Nat.not_lt.mp hle)] at h
  split_ifs at h <;> cases h

end QwenHarness

/-!
## The text of a round

A model answers in items, each streamed as parts of its text and then, perhaps, as the whole of it.
The normalizer keeps one text for all items, and one summary. A whole replaces all there is, also
the text of other items, so the text of a round is that of its items only where a single item says
something before the last whole.
-/

namespace QwenHarness

open Sent

/-! ## Pieces -/

/-- What an event is of the assistant's text. -/
def textPiece : ProviderStreamEvent → Option (Piece String Char)
  | .textDelta itemId delta => some (.delta itemId delta.toList)
  | .textDone itemId text => some (.done itemId text.toList)
  | _ => none

/-- What an event is of the summary of the reasoning. -/
def summaryPiece : ProviderStreamEvent → Option (Piece String Char)
  | .reasoningSummaryDelta itemId delta => some (.delta itemId delta.toList)
  | .reasoningSummaryDone itemId summary => some (.done itemId summary.toList)
  | _ => none

variable {events : List ProviderStreamEvent} {r : NormalizedRound} {event : ProviderStreamEvent}

theorem toList_assistantText_accept (r : NormalizedRound) (event : ProviderStreamEvent) :
    (r.accept event).assistantText.toList =
      ((textPiece event).elim r.assistantText.toList (accumulate r.assistantText.toList)) := by
  cases event with
  | textDelta itemId delta => exact String.toList_append
  | textDone itemId text => rfl
  | _ => rfl

theorem toList_assistantText (events : List ProviderStreamEvent) (r : NormalizedRound) :
    (events.foldl NormalizedRound.accept r).assistantText.toList =
      (events.filterMap textPiece).foldl accumulate r.assistantText.toList := by
  induction events generalizing r with
  | nil => rfl
  | cons event events ih =>
    rw [List.foldl_cons, ih, toList_assistantText_accept]
    rcases hpiece : textPiece event with - | p
    · rw [List.filterMap_cons_none hpiece]
      rfl
    · rw [List.filterMap_cons_some hpiece]
      rfl

theorem reasoningSummary_accept (r : NormalizedRound) (event : ProviderStreamEvent) :
    (r.accept event).reasoningSummary.map String.toList =
      (summaryPiece event).elim (r.reasoningSummary.map String.toList) fun p ↦
        some (accumulate (r.reasoningSummary.getD "").toList p) := by
  cases event with
  | reasoningSummaryDelta itemId delta => exact congrArg some String.toList_append
  | reasoningSummaryDone itemId summary => rfl
  | _ => rfl

theorem toList_getD (summary : Option String) :
    (summary.getD "").toList = (summary.map String.toList).getD [] := by
  cases summary with
  | none => rfl
  | some summary => rfl

/-- There is a summary once a piece of one has come. -/
theorem reasoningSummary_foldl (events : List ProviderStreamEvent) (r : NormalizedRound) :
    (events.foldl NormalizedRound.accept r).reasoningSummary.map String.toList =
      if (events.filterMap summaryPiece).isEmpty then r.reasoningSummary.map String.toList
      else some ((events.filterMap summaryPiece).foldl accumulate
        ((r.reasoningSummary.map String.toList).getD [])) := by
  induction events generalizing r with
  | nil => rfl
  | cons event events ih =>
    rw [List.foldl_cons, ih, reasoningSummary_accept]
    rcases hpiece : summaryPiece event with - | p
    · rw [List.filterMap_cons_none hpiece]
      rfl
    · rw [List.filterMap_cons_some hpiece, List.isEmpty_cons, if_neg Bool.false_ne_true,
        toList_getD]
      split_ifs with hempty
      · rw [List.isEmpty_iff.mp hempty]
        rfl
      · rfl

/-! ## The round -/

/-- The pieces of the assistant's text, and those of the summary. -/
def textPieces (events : List ProviderStreamEvent) : List (Piece String Char) :=
  events.filterMap textPiece

def summaryPieces (events : List ProviderStreamEvent) : List (Piece String Char) :=
  events.filterMap summaryPiece

/-- The summary of all items: nothing where no summary came. -/
def summaryByItem (pieces : List (Piece String Char)) : Option (List Char) :=
  if pieces.isEmpty then none else some (byItem pieces)

theorem assistantText_iff (h : WellSent (textPieces events)) :
    (normalizeRound events).assistantText.toList = byItem (textPieces events) ↔
      LosesNothing (textPieces events) ∧ IsInOrder (textPieces events) := by
  rw [← text_eq_byItem_iff h]
  exact Eq.congr_left (toList_assistantText events .empty)

theorem reasoningSummary_iff (h : WellSent (summaryPieces events)) :
    (normalizeRound events).reasoningSummary.map String.toList =
        summaryByItem (summaryPieces events) ↔
      LosesNothing (summaryPieces events) ∧ IsInOrder (summaryPieces events) := by
  have hfold : (normalizeRound events).reasoningSummary.map String.toList =
      if (summaryPieces events).isEmpty then none
      else some ((summaryPieces events).foldl accumulate []) :=
    reasoningSummary_foldl events .empty
  rw [← text_eq_byItem_iff h, hfold, summaryByItem]
  split_ifs with hempty
  · rw [List.isEmpty_iff.mp hempty]
    exact iff_of_true rfl rfl
  · exact Option.some_inj

/-- **The text of a round** is that of its items, in their order, if and only if nothing that counts
stands before a whole text and what counts comes in order; items that are sent one after the other
are in order. The summary is told alike. -/
theorem round_text_iff (events : List ProviderStreamEvent) (htext : WellSent (textPieces events))
    (hsummary : WellSent (summaryPieces events)) :
    ((normalizeRound events).assistantText.toList = byItem (textPieces events) ↔
        LosesNothing (textPieces events) ∧ IsInOrder (textPieces events)) ∧
      ((normalizeRound events).reasoningSummary.map String.toList =
          summaryByItem (summaryPieces events) ↔
        LosesNothing (summaryPieces events) ∧ IsInOrder (summaryPieces events)) ∧
      (IsSequential (textPieces events) → IsInOrder (textPieces events)) ∧
      (IsSequential (summaryPieces events) → IsInOrder (summaryPieces events)) :=
  ⟨assistantText_iff htext, reasoningSummary_iff hsummary, fun h ↦ h.isInOrder htext,
    fun h ↦ h.isInOrder hsummary⟩

/-- Two messages, each a part and then the whole. -/
def twoMessages : List ProviderStreamEvent :=
  [.textDelta "m1" "Looking.", .textDone "m1" "Looking.", .textDelta "m2" "Done.",
    .textDone "m2" "Done."]

theorem wellSent_twoMessages : WellSent (textPieces twoMessages) := by
  refine wellSent_cons_iff.mpr ⟨by decide, wellSent_cons_iff.mpr ⟨by decide, ?_⟩⟩
  exact wellSent_cons_iff.mpr ⟨by decide, wellSent_cons_iff.mpr ⟨by decide, wellSent_nil⟩⟩

theorem round_text_iff_twoMessages :
    (normalizeRound twoMessages).assistantText.toList = byItem (textPieces twoMessages) ↔
      LosesNothing (textPieces twoMessages) ∧ IsInOrder (textPieces twoMessages) :=
  (round_text_iff twoMessages wellSent_twoMessages wellSent_nil).1

/-- The first message is lost. -/
theorem assistantText_twoMessages : (normalizeRound twoMessages).assistantText = "Done." ∧
    byItem (textPieces twoMessages) = "Looking.Done.".toList := by
  decide +kernel

end QwenHarness
