import QwenHarness.Provider.Transport

/-!
# The responses transport

Each frame of a response is an event of its own kind. Calls of tools are taken from the items that
are done, never from what came of them before. The stream ends with the event that completes the
response; an event that says that it failed is an error.
-/

namespace QwenHarness.Provider

open Codec Effect

/-! ## What is on the wire -/

/-- A part of the summary of an item, or of its content. -/
structure ItemPart where
  type : String
  text : Option String
deriving DecidableEq, Repr

structure ResponsesItem where
  id : Option String
  type : String
  summary : Option (List ItemPart)
  content : Option (List ItemPart)
  name : Option String
  arguments : Option String
  callId : Option String
deriving DecidableEq, Repr

structure ResponsesTextDelta where
  itemId : String
  delta : String
deriving DecidableEq, Repr

structure ResponsesErrorEvent where
  code : Option String
  message : Option String
deriving DecidableEq, Repr

structure ResponsesEnvelope where
  id : Option String
  status : Option String
  usage : Option UsageItem
  /-- Why the response is incomplete. -/
  incompleteReason : Option String
  error : Option ResponsesErrorEvent
deriving DecidableEq, Repr

/-- How the data of a frame is read: as JSON, and then as what its event carries. -/
structure ResponsesWire where
  json : Text → Except RawError Value
  envelope : Value → Except RawError ResponsesEnvelope
  textDelta : Value → Except RawError ResponsesTextDelta
  item : Value → Except RawError ResponsesItem
  errorEvent : Value → Except RawError ResponsesErrorEvent
  wording : Wording

/-- The events that the transport knows. -/
inductive ResponsesEvent
  | created
  | outputTextDelta
  | reasoningSummaryTextDelta
  | outputItemAdded
  | outputItemDone
  | completed
  /-- `response.failed` or `response.incomplete`. -/
  | failed (event : String)
  | error
  | other
deriving DecidableEq, Repr

def responsesEvents : List (String × ResponsesEvent) :=
  [("response.created", .created), ("response.output_text.delta", .outputTextDelta),
    ("response.reasoning_summary_text.delta", .reasoningSummaryTextDelta),
    ("response.output_item.added", .outputItemAdded),
    ("response.output_item.done", .outputItemDone), ("response.completed", .completed),
    ("response.failed", .failed "response.failed"),
    ("response.incomplete", .failed "response.incomplete"), ("error", .error)]

def eventOf (frame : SseFrame) : ResponsesEvent :=
  match frame.event with
  | none => .other
  | some event => (responsesEvents.lookup (String.ofList event)).getD .other

/-! ## The loop -/

/-- The variables of the loop. -/
structure ResponsesLoop where
  sawToolCall : Bool := false
  finished : Bool := false
deriving DecidableEq, Repr

def finishReasonFor (status : String) (sawToolCall : Bool) : FinishReason :=
  if status = "incomplete" then .length
  else if sawToolCall then .toolCalls
  else if status = "completed" then .stop
  else .unknown

def takeTextDelta (delta : ResponsesTextDelta) : Transport Unit :=
  if delta.delta = "" then pure ()
  else do
    emitVisibleOutput
    yieldEvent (.textDelta delta.itemId delta.delta)

def takeSummaryDelta (delta : ResponsesTextDelta) : Transport Unit :=
  if delta.delta = "" then pure () else yieldEvent (.reasoningSummaryDelta delta.itemId delta.delta)

def takeItemAdded (loop : ResponsesLoop) (item : ResponsesItem) : Transport ResponsesLoop :=
  match item.callId.or item.id, item.name with
  | some callId, some name =>
    if item.type = "function_call" then do
      yieldEvent (.toolCallBegin (item.id.getD callId) callId name)
      pure { loop with sawToolCall := true }
    else pure loop
  | _, _ => pure loop

/-- The texts of the parts of a kind, joined. -/
def partsText (type : String) (parts : Option (List ItemPart)) : String :=
  (((parts.getD []).filter fun part ↦ decide (part.type = type)).map fun part ↦
    part.text.getD "").foldl (· ++ ·) ""

def noteVisibleOutput (text : String) : Transport Unit := fun s ↦
  .ok () { s with visibleOutputEmitted := s.visibleOutputEmitted || decide (text ≠ "") }

def takeMessageDone (item : ResponsesItem) : Transport Unit := do
  let text := partsText "output_text" item.content
  noteVisibleOutput text
  yieldEvent (.textDone (item.id.getD "") text)

def takeReasoningDone (item : ResponsesItem) : Transport Unit :=
  let summary := partsText "summary_text" item.summary
  if summary = "" then pure () else yieldEvent (.reasoningSummaryDone (item.id.getD "") summary)

/-- The arguments are parsed first: a call is not yielded until they are known to be an object. -/
def takeCallDone (json : Text → Except RawError Value) (loop : ResponsesLoop)
    (item : ResponsesItem) : Transport ResponsesLoop :=
  let callId := (item.callId.or item.id).getD ""
  let toolName := item.name.getD ""
  let argumentsJson := item.arguments.getD ""
  match parseToolArguments json argumentsJson with
  | none => fail (malformedToolArgumentsError toolName callId argumentsJson)
  | some arguments => do
    yieldEvent (.toolCallComplete
      { itemId := item.id.getD callId, callId, toolName, argumentsJson, arguments })
    pure { loop with sawToolCall := true }

def takeItemDone (json : Text → Except RawError Value) (loop : ResponsesLoop)
    (item : ResponsesItem) : Transport ResponsesLoop :=
  if item.type = "reasoning" then do
    takeReasoningDone item
    pure loop
  else if item.type = "message" then do
    takeMessageDone item
    pure loop
  else if item.type = "function_call" then takeCallDone json loop item
  else pure loop

def takeCompleted (loop : ResponsesLoop) (envelope : ResponsesEnvelope) :
    Transport ResponsesLoop := do
  yieldEvent (.usage (envelope.usage.getD ⟨none, none, none, none, none⟩))
  yieldEvent (.done (finishReasonFor (envelope.status.getD "completed") loop.sawToolCall))
  pure { loop with finished := true }

/-- What the service says of a response that failed. -/
def failedError (wording : Wording) (event : String) (envelope : ResponsesEnvelope) :
    Bool → HarnessError :=
  streamFailureError wording
    ((envelope.error.bind ResponsesErrorEvent.code).or envelope.incompleteReason)
    ((envelope.error.bind ResponsesErrorEvent.message).getD ("response ended as " ++ event))

/-- What is known of the frame's event is done with its data; the data of other events is read as
JSON all the same. -/
def takeResponsesFrame (wire : ResponsesWire) (loop : ResponsesLoop) (frame : SseFrame) :
    Transport ResponsesLoop := do
  let parsed ← orRaise (wire.json frame.data)
  match eventOf frame with
  | .created => do
    let envelope ← orRaise (wire.envelope parsed)
    nameRequest envelope.id
    pure loop
  | .outputTextDelta => do
    let delta ← orRaise (wire.textDelta parsed)
    takeTextDelta delta
    pure loop
  | .reasoningSummaryTextDelta => do
    let delta ← orRaise (wire.textDelta parsed)
    takeSummaryDelta delta
    pure loop
  | .outputItemAdded => do
    let item ← orRaise (wire.item parsed)
    takeItemAdded loop item
  | .outputItemDone => do
    let item ← orRaise (wire.item parsed)
    takeItemDone wire.json loop item
  | .completed => do
    let envelope ← orRaise (wire.envelope parsed)
    takeCompleted loop envelope
  | .failed event => do
    let envelope ← orRaise (wire.envelope parsed)
    fail (failedError wire.wording event envelope)
  | .error => do
    let error ← orRaise (wire.errorEvent parsed)
    fail (streamFailureError wire.wording error.code (error.message.getD "stream error"))
  | .other => pure loop

def takeResponsesFrames (wire : ResponsesWire) (body : Body) (loop : ResponsesLoop) :
    List SseFrame → Transport ResponsesLoop
  | [] => do
    body.finish
    pure loop
  | frame :: frames => do
    let loop ← takeResponsesFrame wire loop frame
    if loop.finished then pure loop else takeResponsesFrames wire body loop frames

def streamResponses (wire : ResponsesWire) (headerRequestId : Option String) (body : Body) :
    Transport Unit := do
  nameRequest headerRequestId
  let loop ← takeResponsesFrames wire body {} body.frames
  if loop.finished then pure () else fail truncatedStreamError

/-! ## The stream is honest -/

theorem honestly_takeTextDelta (delta : ResponsesTextDelta) : Honestly (takeTextDelta delta) := by
  rw [takeTextDelta]
  split
  · exact honestly_pure _
  · exact honestly_yieldText _

theorem honestly_takeSummaryDelta (delta : ResponsesTextDelta) :
    Honestly (takeSummaryDelta delta) := by
  rw [takeSummaryDelta]
  split
  · exact honestly_pure _
  · exact honestly_yieldEvent rfl

theorem honestly_takeItemAdded (loop : ResponsesLoop) (item : ResponsesItem) :
    Honestly (takeItemAdded loop item) := by
  unfold takeItemAdded
  split
  · split
    · exact (honestly_yieldEvent rfl).bind fun _ ↦ honestly_pure _
    · exact honestly_pure _
  · exact honestly_pure _

theorem honestly_takeReasoningDone (item : ResponsesItem) :
    Honestly (takeReasoningDone item) := by
  simp only [takeReasoningDone]
  split
  · exact honestly_pure _
  · exact honestly_yieldEvent rfl

/-- The whole text of a message is noted before it is yielded, if there is any. -/
theorem honestly_takeMessageDone (item : ResponsesItem) : Honestly (takeMessageDone item) := by
  intro s hs
  refine List.forall_mem_append.mpr ⟨fun event hevent hvisible ↦ ?_, ?_⟩
  · change (s.visibleOutputEmitted || _) = true
    rw [hs event hevent hvisible, Bool.true_or]
  · refine List.forall_mem_singleton.mpr fun hvisible ↦ ?_
    change (s.visibleOutputEmitted || _) = true
    exact Bool.or_eq_true_iff.mpr (.inr hvisible)

theorem honestly_takeCallDone (json : Text → Except RawError Value) (loop : ResponsesLoop)
    (item : ResponsesItem) : Honestly (takeCallDone json loop item) := by
  simp only [takeCallDone]
  split
  · exact honestly_fail fun _ ↦ rfl
  · exact (honestly_yieldEvent rfl).bind fun _ ↦ honestly_pure _

theorem honestly_takeItemDone (json : Text → Except RawError Value) (loop : ResponsesLoop)
    (item : ResponsesItem) : Honestly (takeItemDone json loop item) := by
  rw [takeItemDone]
  split
  · exact (honestly_takeReasoningDone item).bind fun _ ↦ honestly_pure _
  · split
    · exact (honestly_takeMessageDone item).bind fun _ ↦ honestly_pure _
    · split
      · exact honestly_takeCallDone json loop item
      · exact honestly_pure _

theorem honestly_takeResponsesFrame (wire : ResponsesWire) (loop : ResponsesLoop)
    (frame : SseFrame) : Honestly (takeResponsesFrame wire loop frame) := by
  refine (honestly_orRaise _).bind fun parsed ↦ ?_
  cases eventOf frame with
  | created =>
    exact (honestly_orRaise _).bind fun _ ↦ (honestly_nameRequest _).bind fun _ ↦ honestly_pure _
  | outputTextDelta =>
    exact (honestly_orRaise _).bind fun _ ↦ (honestly_takeTextDelta _).bind fun _ ↦ honestly_pure _
  | reasoningSummaryTextDelta =>
    exact (honestly_orRaise _).bind fun _ ↦
      (honestly_takeSummaryDelta _).bind fun _ ↦ honestly_pure _
  | outputItemAdded => exact (honestly_orRaise _).bind fun _ ↦ honestly_takeItemAdded _ _
  | outputItemDone => exact (honestly_orRaise _).bind fun _ ↦ honestly_takeItemDone _ _ _
  | completed =>
    refine (honestly_orRaise _).bind fun _ ↦ (honestly_yieldEvent rfl).bind fun _ ↦ ?_
    exact (honestly_yieldEvent rfl).bind fun _ ↦ honestly_pure _
  | failed event => exact (honestly_orRaise _).bind fun _ ↦ honestly_fail fun _ ↦ rfl
  | error => exact (honestly_orRaise _).bind fun _ ↦ honestly_fail fun _ ↦ rfl
  | other => exact honestly_pure _

theorem honestly_takeResponsesFrames (wire : ResponsesWire) (body : Body) (frames : List SseFrame)
    (loop : ResponsesLoop) : Honestly (takeResponsesFrames wire body loop frames) := by
  induction frames generalizing loop with
  | nil => exact (honestly_finish body).bind fun _ ↦ honestly_pure _
  | cons frame frames ih =>
    refine (honestly_takeResponsesFrame wire loop frame).bind fun loop ↦ ?_
    split
    · exact honestly_pure _
    · exact ih loop

theorem honestly_streamResponses (wire : ResponsesWire) (headerRequestId : Option String)
    (body : Body) : Honestly (streamResponses wire headerRequestId body) := by
  refine (honestly_nameRequest _).bind fun _ ↦ ?_
  refine (honestly_takeResponsesFrames wire body body.frames {}).bind fun loop ↦ ?_
  split
  · exact honestly_pure _
  · exact honestly_fail fun _ ↦ rfl

end QwenHarness.Provider
