import Mathlib.Data.Rat.Defs
import QwenHarness.Provider.Transport
import QwenHarness.Table.Assoc

/-!
# The chat transport

A response comes in chunks, and the calls of tools in fragments, which may stand in any chunk and in
any order. The index of a fragment says which call it is of; the id and the name of the call come
with its first fragment, and a part of its arguments with each. Only where the model says that it
has finished are the calls complete. Then they are yielded in the order of their indexes, and the
first whose arguments are no JSON object is an error.
-/

namespace QwenHarness.Provider

open Codec Effect

/-! ## What is on the wire -/

structure FragmentFunction where
  name : Option String := none
  arguments : Option String := none
deriving DecidableEq, Repr

/-- A fragment of a call of a tool. -/
structure Fragment where
  index : ℚ
  id : Option String := none
  function : Option FragmentFunction := none
deriving DecidableEq, Repr

structure ChatDelta where
  content : Option String := none
  reasoningContent : Option String := none
  toolCalls : Option (List Fragment) := none
deriving DecidableEq, Repr

structure ChatChoice where
  delta : Option ChatDelta := none
  finishReason : Option String := none
deriving DecidableEq, Repr

structure ChatChunk where
  id : Option String := none
  choices : List ChatChoice := []
  usage : Option UsageItem := none
deriving DecidableEq, Repr

/-- How the data of a frame is read: as JSON, and then as a chunk. -/
structure ChatWire where
  json : Text → Except RawError Value
  chunk : Value → Except RawError ChatChunk

/-- The data of the last frame. -/
def sseDone : Text := ['[', 'D', 'O', 'N', 'E', ']']

def chatFinishReason (raw : String) : FinishReason :=
  if raw = "stop" then .stop
  else if raw = "tool_calls" ∨ raw = "function_call" then .toolCalls
  else if raw = "length" then .length
  else if raw = "content_filter" then .contentFilter
  else .unknown

/-! ## Calls under construction -/

structure PendingToolCall where
  callId : String := ""
  toolName : String := ""
  argumentsJson : String := ""
  begun : Bool := false
deriving DecidableEq, Repr

namespace Fragment

variable (fragment : Fragment)

def name : Option String := fragment.function.bind FragmentFunction.name

/-- The part of the arguments that the fragment carries. -/
def part : String := (fragment.function.bind FragmentFunction.arguments).getD ""

end Fragment

/-- What is there replaces what was, unless it is empty. -/
def orKeep (new : Option String) (old : String) : String :=
  match new with
  | some new => if new = "" then old else new
  | none => old

namespace PendingToolCall

variable (call : PendingToolCall)

def take (fragment : Fragment) : PendingToolCall :=
  { call with
    callId := orKeep fragment.id call.callId
    toolName := orKeep fragment.name call.toolName
    argumentsJson := call.argumentsJson ++ fragment.part }

/-- A call begins once its id and its name are known. -/
def begins : Bool := !call.begun && decide (call.callId ≠ "") && decide (call.toolName ≠ "")

end PendingToolCall

/-- A fragment joins the call of its index, or is the first of a new one. -/
def joinFragment (fragment : Fragment) (call : Option PendingToolCall) : PendingToolCall :=
  let call := (call.getD {}).take fragment
  if call.begins then { call with begun := true } else call

abbrev PendingToolCalls := List (ℚ × PendingToolCall)

def takeFragment (pending : PendingToolCalls) (fragment : Fragment) : Transport PendingToolCalls :=
  let call := ((pending.lookup fragment.index).getD {}).take fragment
  do
    when call.begins (yieldEvent (.toolCallBegin call.callId call.callId call.toolName))
    pure (Assoc.alter fragment.index (joinFragment fragment) pending)

/-! ## The loop -/

/-- The variables of the loop. -/
structure ChatLoop where
  pending : PendingToolCalls := []
  reasoningOccurred : Bool := false
  usage : Option UsageItem := none
  finishReason : Option FinishReason := none
  completedCalls : ℕ := 0
deriving DecidableEq, Repr

/-- A call is yielded, if its arguments are a JSON object. -/
def completeCall (json : Text → Except RawError Value) (pending : PendingToolCalls)
    (completedCalls : ℕ) (index : ℚ) : Transport ℕ :=
  match pending.lookup index with
  | none => pure completedCalls
  | some call =>
    match parseToolArguments json call.argumentsJson with
    | none => fail (malformedToolArgumentsError call.toolName call.callId call.argumentsJson)
    | some arguments => do
      yieldEvent (.toolCallComplete
        { itemId := call.callId, callId := call.callId, toolName := call.toolName
          argumentsJson := call.argumentsJson, arguments })
      pure (completedCalls + 1)

/-- The indexes of the calls, from the least on. -/
def sortedIndexes (pending : PendingToolCalls) : List ℚ :=
  (pending.map Prod.fst).mergeSort fun i j ↦ decide (i ≤ j)

def ChatChoice.fragments (choice : ChatChoice) : List Fragment :=
  (choice.delta.bind ChatDelta.toolCalls).getD []

/-- What the model says of how it has finished, which is not empty. -/
def ChatChoice.finish (choice : ChatChoice) : Option String :=
  match choice.finishReason with
  | some raw => if raw = "" then none else some raw
  | none => none

def takeContent (chunkId : Option String) (content : Option String) : Transport Unit :=
  match content with
  | none => pure ()
  | some delta =>
    if delta = "" then pure ()
    else do
      emitVisibleOutput
      yieldEvent (.textDelta (chunkId.getD "") delta)

/-- What the model reasons is dropped; only that it does is told, once. -/
def takeReasoning (loop : ChatLoop) (reasoning : Option String) : Transport ChatLoop :=
  if (reasoning.getD "") = "" ∨ loop.reasoningOccurred = true then pure loop
  else do
    yieldEvent (.reasoningStatus none)
    pure { loop with reasoningOccurred := true }

/-- Once the model has finished, all calls are complete. -/
def completeCalls (json : Text → Except RawError Value) (loop : ChatLoop) (raw : String) :
    Transport ChatLoop := do
  let completedCalls ← (sortedIndexes loop.pending).foldlM (completeCall json loop.pending)
    loop.completedCalls
  pure { loop with finishReason := some (chatFinishReason raw), completedCalls, pending := [] }

def takeChoice (wire : ChatWire) (chunkId : Option String) (loop : ChatLoop)
    (choice : ChatChoice) : Transport ChatLoop := do
  takeContent chunkId (choice.delta.bind ChatDelta.content)
  let loop ← takeReasoning loop (choice.delta.bind ChatDelta.reasoningContent)
  let pending ← choice.fragments.foldlM takeFragment loop.pending
  match choice.finish with
  | none => pure { loop with pending }
  | some raw => completeCalls wire.json { loop with pending } raw

def ChatLoop.noteUsage (loop : ChatLoop) (usage : Option UsageItem) : ChatLoop :=
  match usage with
  | some usage => { loop with usage := some usage }
  | none => loop

def takeChunk (wire : ChatWire) (loop : ChatLoop) (chunk : ChatChunk) : Transport ChatLoop := do
  nameRequest chunk.id
  chunk.choices.foldlM (takeChoice wire chunk.id) (loop.noteUsage chunk.usage)

def takeChatFrame (wire : ChatWire) (loop : ChatLoop) (frame : SseFrame) : Transport ChatLoop := do
  let value ← orRaise (wire.json frame.data)
  let chunk ← orRaise (wire.chunk value)
  takeChunk wire loop chunk

/-- The frames before the last one, which ends the stream. -/
def takeChatFrames (wire : ChatWire) (body : Body) (loop : ChatLoop) :
    List SseFrame → Transport ChatLoop
  | [] => do
    body.finish
    pure loop
  | frame :: frames =>
    if frame.data = sseDone then pure loop
    else do
      let loop ← takeChatFrame wire loop frame
      takeChatFrames wire body loop frames

/-- What a stream yields last: the usage, and how it finished. Calls that were parsed are what it
finished for. -/
def finishChat (loop : ChatLoop) : Transport Unit :=
  match loop.finishReason with
  | none => fail truncatedStreamError
  | some finishReason => do
    yieldEvent (.usage (loop.usage.getD ⟨none, none, none, none, none⟩))
    when (loop.reasoningOccurred = true)
      (yieldEvent (.reasoningStatus (loop.usage.bind UsageItem.reasoningTokens)))
    yieldEvent (.done (if 0 < loop.completedCalls then .toolCalls else finishReason))

/-- The stream of a response: its request id is in its header, if it has one there. -/
def streamChat (wire : ChatWire) (headerRequestId : Option String) (body : Body) :
    Transport Unit := do
  nameRequest headerRequestId
  let loop ← takeChatFrames wire body {} body.frames
  finishChat loop

/-! ## The stream is honest -/

theorem honestly_takeFragment (pending : PendingToolCalls) (fragment : Fragment) :
    Honestly (takeFragment pending fragment) := by
  refine Honestly.bind ?_ fun _ ↦ honestly_pure _
  exact Triple.when (fun _ ↦ honestly_yieldEvent rfl) fun _ _ h ↦ h

theorem honestly_completeCall (json : Text → Except RawError Value) (pending : PendingToolCalls)
    (completedCalls : ℕ) (index : ℚ) :
    Honestly (completeCall json pending completedCalls index) := by
  rw [completeCall]
  split
  · exact honestly_pure _
  · split
    · exact honestly_fail fun _ ↦ rfl
    · exact (honestly_yieldEvent rfl).bind fun _ ↦ honestly_pure _

theorem honestly_takeContent (chunkId content : Option String) :
    Honestly (takeContent chunkId content) := by
  unfold takeContent
  split
  · exact honestly_pure _
  · split
    · exact honestly_pure _
    · exact honestly_yieldText _

theorem honestly_takeReasoning (loop : ChatLoop) (reasoning : Option String) :
    Honestly (takeReasoning loop reasoning) := by
  rw [takeReasoning]
  split
  · exact honestly_pure _
  · exact (honestly_yieldEvent rfl).bind fun _ ↦ honestly_pure _

theorem honestly_completeCalls (json : Text → Except RawError Value) (loop : ChatLoop)
    (raw : String) : Honestly (completeCalls json loop raw) :=
  Honestly.bind (.foldlM (honestly_completeCall json loop.pending) _ _) fun _ ↦ honestly_pure _

theorem honestly_takeChoice (wire : ChatWire) (chunkId : Option String) (loop : ChatLoop)
    (choice : ChatChoice) : Honestly (takeChoice wire chunkId loop choice) := by
  refine (honestly_takeContent _ _).bind fun _ ↦ (honestly_takeReasoning _ _).bind fun loop ↦ ?_
  refine Honestly.bind (.foldlM honestly_takeFragment _ _) fun pending ↦ ?_
  split
  · exact honestly_pure _
  · exact honestly_completeCalls _ _ _

theorem honestly_takeChatFrame (wire : ChatWire) (loop : ChatLoop) (frame : SseFrame) :
    Honestly (takeChatFrame wire loop frame) := by
  refine (honestly_orRaise _).bind fun value ↦ (honestly_orRaise _).bind fun chunk ↦ ?_
  exact (honestly_nameRequest _).bind fun _ ↦ .foldlM (honestly_takeChoice wire chunk.id) _ _

theorem honestly_takeChatFrames (wire : ChatWire) (body : Body) (frames : List SseFrame)
    (loop : ChatLoop) : Honestly (takeChatFrames wire body loop frames) := by
  induction frames generalizing loop with
  | nil => exact (honestly_finish body).bind fun _ ↦ honestly_pure _
  | cons frame frames ih =>
    rw [takeChatFrames]
    split
    · exact honestly_pure _
    · exact (honestly_takeChatFrame wire loop frame).bind ih

theorem honestly_finishChat (loop : ChatLoop) : Honestly (finishChat loop) := by
  rw [finishChat]
  split
  · exact honestly_fail fun _ ↦ rfl
  · refine (honestly_yieldEvent rfl).bind fun _ ↦ Honestly.bind ?_ fun _ ↦ honestly_yieldEvent rfl
    exact Triple.when (fun _ ↦ honestly_yieldEvent rfl) fun _ _ h ↦ h

theorem honestly_streamChat (wire : ChatWire) (headerRequestId : Option String) (body : Body) :
    Honestly (streamChat wire headerRequestId body) :=
  (honestly_nameRequest _).bind fun _ ↦
    (honestly_takeChatFrames wire body body.frames {}).bind honestly_finishChat

end QwenHarness.Provider
