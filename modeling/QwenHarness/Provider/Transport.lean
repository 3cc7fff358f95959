import QwenHarness.Codec.Utf16
import QwenHarness.Effect.Program
import QwenHarness.Provider.Sse
import QwenHarness.Runtime.Round

/-!
# Streaming the events of a response

A transport reads the frames of a response one after the other and yields events. It keeps two
things for the errors it may throw: the id of the request, and whether text has been shown, which it
notes before the text is yielded. So it is `Honest`: where text has been yielded, every error of its
own says so.
-/

/-!
## What the provider throws

An error that the service reports has a code, and the code a class: whether it is worth another try,
or somebody has to act, or neither. What else goes wrong is an error of the transport, and worth
another try. Each is told whether the turn has already shown text, which is what forbids the try.
-/

namespace QwenHarness.Provider

/-! ## Codes and their classes -/

inductive ErrorClass
  | retryable
  /-- Only with a time that the service itself names. -/
  | hintGated
  | userActionRequired
  | permanent
deriving DecidableEq, Repr

def errorTable : List (String × ErrorClass) :=
  [("throttling", .retryable), ("ratequota", .retryable), ("burstrate", .retryable),
    ("requesttimeout", .retryable), ("serviceunavailable", .retryable),
    ("internalerror", .retryable), ("systemerror", .retryable),
    ("rate_limit_exceeded", .retryable), ("allocationquota", .hintGated),
    ("insufficient_quota", .hintGated), ("commoditynotpurchased", .userActionRequired),
    ("prepaidbilloverdue", .userActionRequired), ("postpaidbilloverdue", .userActionRequired),
    ("invalid_api_key", .userActionRequired), ("invalidapikey", .userActionRequired),
    ("model_not_found", .userActionRequired), ("modelnotfound", .userActionRequired),
    ("invalidparameter", .permanent), ("invalid_request_error", .permanent)]

/-- What stands behind the last dot. -/
def lastSegment (code : String) : String :=
  String.ofList (code.toList.reverse.takeWhile (· ≠ '.')).reverse

/-- The whole code is looked up first, and then its last segment. -/
def lookupRule (normalized : String) : Option ErrorClass :=
  match errorTable.lookup normalized with
  | some errorClass => some errorClass
  | none =>
    if lastSegment normalized = normalized then none else errorTable.lookup (lastSegment normalized)

/-! ## Errors -/

/-- What is thrown and is no error of the harness: its message if it is an error, and whether it is
that of an abort. -/
structure RawError where
  message : Option String
  isAbort : Bool
deriving DecidableEq, Repr

inductive Failure
  | harness (error : HarnessError)
  | raw (error : RawError)
deriving DecidableEq, Repr

/-- What is known of texts: how a code is normalized before it is looked up, and what of a message
may be shown. -/
structure Wording where
  normalizeCode : String → String
  safeProviderMessage : String → String

/-- A failure that the service reports in the stream. A code that is not known is permanent. -/
def streamFailureError (wording : Wording) (code : Option String) (message : String)
    (visibleOutputEmitted : Bool) : HarnessError :=
  let errorClass := (code.bind fun code ↦ lookupRule (wording.normalizeCode code)).getD .permanent
  { message := "DashScope stream failed (" ++ code.getD "no-code" ++ "): " ++
      wording.safeProviderMessage message
    retryable := decide (errorClass = .retryable)
    userActionRequired := decide (errorClass = .userActionRequired ∨ errorClass = .hintGated)
    sideEffectCertainty := .notStarted
    visibleOutputEmitted
    retryAfterMs := none }

/-- The stream ended before the model said that it has finished. -/
def truncatedStreamError (visibleOutputEmitted : Bool) : HarnessError where
  message := "DashScope stream ended before the model reported a finish state"
  retryable := true
  userActionRequired := false
  sideEffectCertainty := .notStarted
  visibleOutputEmitted := visibleOutputEmitted
  retryAfterMs := none

/-- The arguments of a call are not a JSON object. -/
def malformedToolArgumentsError (toolName callId argumentsJson : String)
    (visibleOutputEmitted : Bool) : HarnessError where
  message := "Tool call " ++ toolName ++ " (" ++ callId ++ ") produced " ++
    toString (Utf16.ofString argumentsJson).length ++
    " bytes of arguments that are not valid JSON; the call was not executed"
  retryable := false
  userActionRequired := false
  sideEffectCertainty := .notStarted
  visibleOutputEmitted := visibleOutputEmitted
  retryAfterMs := none

/-- Everything else is a failure of the transport. -/
def classifyTransportError (wording : Wording) (cause : RawError) (visibleOutputEmitted : Bool) :
    HarnessError where
  message := "DashScope request failed before completing: " ++
    (cause.message.map wording.safeProviderMessage).getD "transport failure"
  retryable := true
  userActionRequired := false
  sideEffectCertainty := .notStarted
  visibleOutputEmitted := visibleOutputEmitted
  retryAfterMs := none

/-! ## What is not tried again -/

/-- **Once text has been shown, no request is tried again**, whatever the error is otherwise, and
whatever the policy. -/
theorem decideRetry_of_visibleOutputEmitted {error : HarnessError}
    (h : error.visibleOutputEmitted = true) (attempt : ℕ) (elapsedMs : ℤ) (rng : ℚ)
    (policy : RetryPolicy) :
    ∃ reason, decideRetry error attempt elapsedMs rng policy = .ok (.error reason) := by
  rw [decideRetry]
  by_cases hretryable : error.retryable = false
  · exact ⟨_, if_pos hretryable⟩
  · rw [if_neg hretryable]
    by_cases haction : error.userActionRequired = true
    · exact ⟨_, if_pos haction⟩
    · rw [if_neg haction, if_pos h]
      exact ⟨_, rfl⟩

end QwenHarness.Provider

namespace QwenHarness.Provider

open Codec Effect

/-! ## Programs that yield events -/

/-- What a transport keeps for its errors, and what it has yielded, oldest first. -/
structure Streaming where
  visibleOutputEmitted : Bool := false
  requestId : Option String := none
  yielded : List ProviderStreamEvent := []
deriving Repr

abbrev Transport := EStateM Failure Streaming

variable {α : Type}

def yieldEvent (event : ProviderStreamEvent) : Transport Unit := fun s ↦
  .ok () { s with yielded := s.yielded ++ [event] }

def emitVisibleOutput : Transport Unit := fun s ↦ .ok () { s with visibleOutputEmitted := true }

/-- Throw an error of the harness, which is told whether text has been shown. -/
def fail (error : Bool → HarnessError) : Transport α := fun s ↦
  .error (.harness (error s.visibleOutputEmitted)) s

/-- Let something that is no error of the harness through. -/
def orRaise : Except RawError α → Transport α
  | .ok a => pure a
  | .error error => throw (.raw error)

/-- The request is named once, by a name that is not empty. -/
def Streaming.named (s : Streaming) (id : Option String) : Streaming :=
  match s.requestId, id with
  | none, some id =>
    if id = "" then s
    else { s with
      requestId := some id
      yielded := s.yielded ++ [.requestId id] }
  | _, _ => s

def nameRequest (id : Option String) : Transport Unit := fun s ↦ .ok () (s.named id)

/-- The body of a response: its frames, and the error of the read that fails, if one does. -/
structure Body where
  frames : List SseFrame
  ending : Option RawError
deriving DecidableEq, Repr

/-- The body has been read to its end. -/
def Body.finish (body : Body) : Transport Unit :=
  match body.ending with
  | none => pure ()
  | some error => throw (.raw error)

/-! ## Arguments -/

/-- `argumentsJson.trim() === ''`. -/
def isBlank (text : String) : Bool := decide (Utf16.trim (Utf16.ofString text) = [])

/-- The arguments of a call, if they are a JSON object. What is blank is an empty one. -/
def parseToolArguments (json : Text → Except RawError Value) (argumentsJson : String) :
    Option Arguments :=
  match json (if isBlank argumentsJson then ['\x7b', '\x7d'] else argumentsJson.toList) with
  | .ok (.obj arguments) => some arguments
  | _ => none

/-! ## Honesty -/

/-- Whether an event shows text. -/
def isVisible : ProviderStreamEvent → Bool
  | .textDelta _ _ => true
  | .textDone _ text => decide (text ≠ "")
  | _ => false

/-- Where text has been yielded, it has been noted. -/
def Honest (s : Streaming) : Prop :=
  ∀ event ∈ s.yielded, isVisible event = true → s.visibleOutputEmitted = true

/-- What is thrown says whether text has been shown, if it is an error of the harness. -/
def Flagged (failure : Failure) (s : Streaming) : Prop :=
  Honest s ∧ ∀ error, failure = .harness error → error.visibleOutputEmitted = s.visibleOutputEmitted

/-- A program that is honest, and whose errors are. -/
def Honestly (m : Transport α) : Prop := Triple Honest m (fun _ ↦ Honest) Flagged

variable {s : Streaming} {event : ProviderStreamEvent}

theorem honestly_pure (a : α) : Honestly (pure a) := .pure fun _ h ↦ h

theorem Honestly.bind {β : Type} {m : Transport α} {f : α → Transport β} (hm : Honestly m)
    (hf : ∀ a, Honestly (f a)) : Honestly (m >>= f) := Triple.bind hm hf

/-- Text is noted before it is yielded. -/
theorem honestly_yieldText (event : ProviderStreamEvent) :
    Honestly (emitVisibleOutput >>= fun _ ↦ yieldEvent event) :=
  fun _ _ _ _ _ ↦ rfl

theorem honestly_fail {error : Bool → HarnessError}
    (h : ∀ visible, (error visible).visibleOutputEmitted = visible) :
    Honestly (fail error : Transport α) := by
  refine fun s hs ↦ ⟨hs, fun e he ↦ ?_⟩
  cases he
  exact h _

theorem flagged_raw (h : Honest s) (error : RawError) : Flagged (.raw error) s :=
  ⟨h, fun _ he ↦ Failure.noConfusion he⟩

theorem honestly_throw_raw (error : RawError) : Honestly (throw (.raw error) : Transport α) :=
  .throw fun _ h ↦ flagged_raw h error

theorem honestly_orRaise (result : Except RawError α) : Honestly (orRaise result) := by
  cases result with
  | ok a => exact honestly_pure a
  | error error => exact honestly_throw_raw error

theorem Honest.append (hs : Honest s) (h : isVisible event = false) (id : Option String) :
    Honest { s with requestId := id, yielded := s.yielded ++ [event] } := by
  refine List.forall_mem_append.mpr ⟨hs, List.forall_mem_singleton.mpr fun hv ↦ ?_⟩
  exact absurd (h.symm.trans hv) Bool.false_ne_true

theorem honestly_yieldEvent (h : isVisible event = false) : Honestly (yieldEvent event) :=
  fun s hs ↦ hs.append h s.requestId

theorem honestly_nameRequest (id : Option String) : Honestly (nameRequest id) := by
  intro s hs
  change Honest (s.named id)
  unfold Streaming.named
  split
  · split
    · exact hs
    · exact hs.append rfl _
  · exact hs

theorem honestly_finish (body : Body) : Honestly body.finish := by
  rw [Body.finish]
  cases body.ending with
  | none => exact honestly_pure ()
  | some error => exact honestly_throw_raw error

theorem Honestly.foldlM {β : Type} {f : β → α → Transport β} (hf : ∀ b a, Honestly (f b a))
    (as : List α) (b : β) : Honestly (as.foldlM f b) := by
  induction as generalizing b with
  | nil => exact honestly_pure b
  | cons a as ih =>
    rw [List.foldlM_cons]
    exact (hf b a).bind ih

end QwenHarness.Provider
