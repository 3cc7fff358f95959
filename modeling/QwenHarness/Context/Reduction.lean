import Mathlib.Algebra.Order.Floor.Ring
import Mathlib.Data.Rat.Floor
import Mathlib.Logic.Function.Basic
import QwenHarness.Codec.Utf16
import QwenHarness.Runtime.Round
import QwenHarness.Table.Placed

/-!
# Reduction

What is done to a conversation before a summary is asked for: large results are replaced by
references, messages between the first item and the recent ones are left out, and where a target is
set, the oldest calls are dropped with their results.

A result never stands without its call. The recent items are to stay as they are, but the places of
the pairs are counted after messages have been left out, and the boundary before that: as many of
the recent items as there were messages left out may lose their results, and with them their calls.
-/

/-!
## What a conversation costs

The estimate of the tokens of a conversation, and the budget of a context window: what is kept back
for the answer, what is left for the input, and from where on a conversation is to be compacted.
-/

namespace QwenHarness

namespace Context

/-- `text.length`. -/
def textLength (s : String) : ℕ := (Utf16.ofString s).length

abbrev TokenEstimator := String → ℚ

/-- Four characters a token. -/
def defaultTokenEstimator : TokenEstimator := fun text ↦ ⌈(textLength text : ℚ) / 4⌉

def defaultReserveFraction : ℚ := 15 / 100

def proactiveThresholdFraction : ℚ := 85 / 100

def roleText : Role → String
  | .user => "user"
  | .assistant => "assistant"

/-- The text whose length is estimated: a call counts with its name and its arguments. -/
def serializeInputItem : ModelInputItem → String
  | .message role text => roleText role ++ ": " ++ text
  | .functionCall callId name argumentsJson =>
    "call " ++ name ++ " " ++ callId ++ " " ++ argumentsJson
  | .functionOutput callId name output => "output " ++ name ++ " " ++ callId ++ " " ++ output

def estimateItems (items : List ModelInputItem) (estimate : TokenEstimator) : ℚ :=
  (items.map fun item ↦ estimate (serializeInputItem item)).sum

end Context

end QwenHarness

namespace QwenHarness

open Placed

namespace Context

/-! ## References -/

inductive ContextRefKind where
  | toolResult
  | transcript
deriving DecidableEq, Repr

structure ContextRef where
  ref : String
  kind : ContextRefKind
  chars : ℕ
  estimatedTokens : ℚ
  preview : String
  previewTruncated : Bool
deriving DecidableEq, Repr

structure RefPreviewOptions where
  headChars : Option ℕ
  tailChars : Option ℕ
deriving DecidableEq, Repr

/-- `text.slice(start, stop)`. A half of a surrogate pair is replaced. -/
def slice (text : String) (start stop : ℕ) : String :=
  String.ofList (Utf16.toChars (((Utf16.ofString text).take stop).drop start))

/-- The two ends of a text, and whether anything was left out between them. -/
def boundedPreview (text : String) (options : RefPreviewOptions) : String × Bool :=
  let head := options.headChars.getD 512
  let tail := options.tailChars.getD 512
  let length := textLength text
  if length ≤ head + tail then (text, false)
  else
    (slice text 0 head ++ "\n…[offloaded " ++ toString (length - head - tail) ++ " chars]…\n" ++
      slice text (length - tail) length, true)

def makeContextRef (refId text : String) (kind : ContextRefKind) (options : RefPreviewOptions)
    (estimate : TokenEstimator) : ContextRef where
  ref := refId
  kind := kind
  chars := textLength text
  estimatedTokens := estimate text
  preview := (boundedPreview text options).1
  previewTruncated := (boundedPreview text options).2

def renderOffloaded (ref : ContextRef) : String :=
  ref.preview ++ "\n[full result offloaded — ref=" ++ ref.ref ++ ", " ++ toString ref.chars ++
    " chars]"

/-! ## Pairs -/

/-- Every result comes after a call of its id. -/
def pairingFrom (seenCalls : List String) : List ModelInputItem → Bool
  | [] => true
  | .functionCall callId _ _ :: items => pairingFrom (callId :: seenCalls) items
  | .functionOutput callId _ _ :: items => seenCalls.contains callId && pairingFrom seenCalls items
  | .message _ _ :: items => pairingFrom seenCalls items

def isPairingIntact (items : List ModelInputItem) : Bool := pairingFrom [] items

structure Pair where
  callId : String
  callIndex : ℕ
  outputIndex : ℕ
deriving DecidableEq, Repr

/-- The pairs of the items from place `i` on, after the calls at the places `callIndex`. -/
def pairsFrom (callIndex : String → Option ℕ) (i : ℕ) : List ModelInputItem → List Pair
  | [] => []
  | .functionCall callId _ _ :: items =>
    pairsFrom (Function.update callIndex callId (some i)) (i + 1) items
  | .functionOutput callId _ _ :: items =>
    match callIndex callId with
    | some ci => ⟨callId, ci, i⟩ :: pairsFrom callIndex (i + 1) items
    | none => pairsFrom callIndex (i + 1) items
  | .message _ _ :: items => pairsFrom callIndex (i + 1) items

/-- A call without a result is in no pair. -/
def completePairs (items : List ModelInputItem) : List Pair := pairsFrom (fun _ ↦ none) 0 items

def surviving (items : List ModelInputItem) (remove : List ℕ) : List ModelInputItem :=
  filterIdx (fun i _ ↦ !remove.contains i) items

/-- The places of the pairs that are dropped, and how many pairs these are. -/
def dropPairs (items : List ModelInputItem) (target : ℚ) (estimate : TokenEstimator)
    (remove : List ℕ) : List Pair → List ℕ × ℕ
  | [] => (remove, 0)
  | pair :: pairs =>
    if estimateItems (surviving items remove) estimate ≤ target then (remove, 0)
    else
      let rest := dropPairs items target estimate
        (remove ++ [pair.callIndex, pair.outputIndex]) pairs
      (rest.1, rest.2 + 1)

def dropOldestPairsUntil (items : List ModelInputItem) (target : ℚ) (recentStart : ℕ)
    (estimate : TokenEstimator) : List ModelInputItem × ℕ :=
  let pairs := (completePairs items).filter fun p ↦
    decide (p.callIndex < recentStart) && decide (p.outputIndex < recentStart)
  let dropped := dropPairs items target estimate [] pairs
  (surviving items dropped.1, dropped.2)

/-! ## Reduction -/

structure ReductionOptions where
  estimate : Option TokenEstimator
  /-- The name of the stored result, from the id, the tool and the text of the result and the place
  of the item. -/
  makeRefId : (callId name output : String) → ℕ → String
  offloadThresholdChars : Option ℚ
  preserveRecent : Option ℕ
  previewOptions : RefPreviewOptions
  targetTokens : Option ℚ

structure ReductionResult where
  items : List ModelInputItem
  refs : List ContextRef
  offloadedCount : ℕ
  prunedCount : ℕ
  droppedPairCount : ℕ
  tokensBefore : ℚ
  tokensAfter : ℚ
  pairingIntact : Bool
deriving DecidableEq, Repr

namespace ReductionOptions

def estimator (options : ReductionOptions) : TokenEstimator :=
  options.estimate.getD defaultTokenEstimator

/-- Where the recent items of a conversation begin. -/
def recentStart (options : ReductionOptions) (items : List ModelInputItem) : ℕ :=
  items.length - options.preserveRecent.getD 4

/-- The reference that takes the place of a result, if the result is old and large. -/
def refOf (options : ReductionOptions) (recentStart i : ℕ) : ModelInputItem → Option ContextRef
  | .functionOutput callId name output =>
    if i < recentStart ∧ options.offloadThresholdChars.getD 2048 < textLength output then
      some (makeContextRef (options.makeRefId callId name output i) output .toolResult
        options.previewOptions options.estimator)
    else none
  | _ => none

def offload (options : ReductionOptions) (recentStart i : ℕ) (item : ModelInputItem) :
    ModelInputItem :=
  match item with
  | .functionOutput callId name output =>
    match options.refOf recentStart i item with
    | some ref => .functionOutput callId name (renderOffloaded ref)
    | none => .functionOutput callId name output
  | item => item

end ReductionOptions

def isMessage : ModelInputItem → Bool
  | .message _ _ => true
  | _ => false

/-- Between the first item and the recent ones, and a message. -/
def isPruned (recentStart i : ℕ) (item : ModelInputItem) : Bool :=
  decide (0 < i ∧ i < recentStart) && isMessage item

def reduceContext (items : List ModelInputItem) (options : ReductionOptions) : ReductionResult :=
  let recentStart := options.recentStart items
  let refs := (items.mapIdx fun i item ↦ options.refOf recentStart i item).reduceOption
  let offloaded := items.mapIdx fun i item ↦ options.offload recentStart i item
  let pruned := filterIdx (fun i item ↦ !isPruned recentStart i item) offloaded
  let working :=
    match options.targetTokens with
    | none => (pruned, 0)
    | some target => dropOldestPairsUntil pruned target recentStart options.estimator
  { items := working.1
    refs
    offloadedCount := refs.length
    prunedCount := offloaded.zipIdx.countP fun p ↦ isPruned recentStart p.2 p.1
    droppedPairCount := working.2
    tokensBefore := estimateItems items options.estimator
    tokensAfter := estimateItems working.1 options.estimator
    pairingIntact := isPairingIntact working.1 }

end Context

end QwenHarness
