import QwenHarness.Policy.CanonicalJson
import QwenHarness.Protocol.Domain
import QwenHarness.Table.PutRow
import QwenHarness.Tui.Diff

/-!
# The transcript

A stream of items is projected to rows, one for each id. Where one item is added, the row is looked
for and the rows are copied; a whole history is put together with a map from ids to places. Both
give the same transcript: `buildTranscript_eq`.

At most one row is active. An item that is still streamed makes its row the active one, and an item
that completes the active row leaves none.
-/

namespace QwenHarness.Tui

open Policy (Json)
open Utf16

/-! ## Items -/

/-- The part of an item that depends on its type, with what a row shows of it. -/
inductive ItemContent where
  | userMessage (text : Text)
  | assistantMessage (text : Text) (complete : Bool)
  | reasoningSummary (summary : Text) (complete : Bool)
  | reasoningStatus (reasoningTokens : Option ℕ)
  | toolCall (callId toolName argumentsJson : Text) (arguments : Option (List (Text × Json)))
  | toolResult (callId toolName : Text) (ok : Bool) (preview : Text) (truncated : Bool)
      (durationMs : ℕ) (errorCategory : Option Text)
  | approval (decision : PolicyOutcome) (scope : Option ApprovalScope) (normalizedAction : Text)
      (actorLabel : Option Text)
  | error (category message : Text) (retryable : Bool) (requestId : Option Text)
  | usage (usage : UsageItem)
  | compaction (trigger : CompactionTrigger) (summary : Text) (tokensBefore tokensAfter : ℕ)
  | userShell (command : Text) (exitCode : Option ℤ) (output : Text) (truncated : Bool)

/-- An item of a turn, as far as a row shows it. -/
structure TurnItem where
  id : Text
  seq : ℕ
  content : ItemContent

/-! ## Rows -/

inductive RowContent where
  | user (text : Text)
  | assistant (text : Text) (streaming : Bool)
  | reasoningSummary (text : Text) (streaming : Bool)
  | toolCall (callId toolName argsPreview : Text)
  | toolResult (callId toolName : Text) (ok : Bool) (preview : Text) (truncated : Bool)
      (durationMs : ℕ) (errorCategory : Option Text)
  | diff (callId toolName : Text) (diff : ParsedDiff)
  | error (category message : Text) (retryable : Bool) (requestId : Option Text)
  | usage (usage : UsageItem)
  | progress (detail : Option Text) (tokens : Option ℕ)
  | approval (decision : PolicyOutcome) (scope : Option ApprovalScope) (normalizedAction : Text)
      (actorLabel : Option Text)
  | compaction (trigger : CompactionTrigger) (summary : Text) (tokensBefore tokensAfter : ℕ)
  | userShell (command : Text) (exitCode : Option ℤ) (output : Text) (truncated : Bool)
deriving DecidableEq

structure TranscriptRow where
  id : Text
  seq : ℕ
  label : String
  /-- False only for a row that is still streamed. -/
  completed : Bool
  content : RowContent
deriving DecidableEq

/-! ### From an item to its row -/

def modelText (text : Text) : Text := (sanitize text ⟨.model, none, none⟩).text

def toolText (text : Text) (maxLength : ℤ) : Text :=
  (sanitize text ⟨.tool, some maxLength, none⟩).text

def line (text : Text) (origin : TextOrigin) (maxLength : ℤ) : Text :=
  (sanitize text ⟨origin, some maxLength, some false⟩).text

/-- The length of a line where none is given. -/
def lineLength : ℤ := 200

mutual

/-- `JSON.stringify` of a value. -/
def stringify : Json → Text
  | .undefined => ofString "null"
  | .null => ofString "null"
  | .bool b => ofString (if b then "true" else "false")
  | .num n => ofChars n.spell
  | .str s => quote s
  | .arr xs => ofString "[" ++ [Policy.Json.comma].intercalate (stringifyItems xs) ++ ofString "]"
  | .obj kvs =>
    ofString "\x7b" ++ [Policy.Json.comma].intercalate (stringifyEntries kvs) ++ ofString "\x7d"

def stringifyItems : List Json → List Text
  | [] => []
  | x :: xs => stringify x :: stringifyItems xs

/-- What is `undefined` is left out of an object. -/
def stringifyEntries : List (Text × Json) → List Text
  | [] => []
  | (k, v) :: kvs =>
    if v.isUndefined then stringifyEntries kvs
    else (quote k ++ Policy.Json.colon :: stringify v) :: stringifyEntries kvs

end

def previewArgs (args : Option (List (Text × Json))) (raw : Text) : Text :=
  match args with
  | some args => stringify (.obj args)
  | none => raw

/-- Does a text have a line that begins as the header of a hunk? -/
def looksLikeUnifiedDiff (input : Text) : Bool :=
  (input.splitOn 0x0A).any fun line ↦ (hunkHeader line).isSome

/-- The label, whether the row is complete, and what it shows. Numbers of a diff are rounded to
`nearest`. -/
def buildContent (nearest : ℕ → ℕ) : ItemContent → String × Bool × RowContent
  | .userMessage text => ("user", true, .user (sanitize text ⟨.user, none, none⟩).text)
  | .assistantMessage text complete =>
    ("assistant", complete, .assistant (modelText text) !complete)
  | .reasoningSummary summary complete =>
    ("reasoning", complete, .reasoningSummary (modelText summary) !complete)
  | .reasoningStatus reasoningTokens => ("thinking", true, .progress none reasoningTokens)
  | .toolCall callId toolName argumentsJson arguments =>
    ("tool", true, .toolCall callId (line toolName .model lineLength)
      (toolText (previewArgs arguments argumentsJson) 2000))
  | .toolResult callId toolName ok preview truncated durationMs errorCategory =>
    if looksLikeUnifiedDiff preview then
      ("diff", true, .diff callId (line toolName .model lineLength)
        (parseUnifiedDiff nearest preview))
    else
      ("result", true, .toolResult callId (line toolName .model lineLength) ok
        (toolText preview 4000) truncated durationMs
        (errorCategory.map fun category ↦ line category .tool lineLength))
  | .error category message retryable requestId =>
    ("error", true, .error (line category .provider lineLength)
      (sanitize message ⟨.provider, none, none⟩).text retryable requestId)
  | .usage usage => ("usage", true, .usage usage)
  | .approval decision scope normalizedAction actorLabel =>
    ("approval", true, .approval decision scope (line normalizedAction .tool 400)
      (actorLabel.map fun label ↦ line label .user lineLength))
  | .compaction trigger summary tokensBefore tokensAfter =>
    ("compacted", true, .compaction trigger (modelText summary) tokensBefore tokensAfter)
  | .userShell command exitCode output truncated =>
    ("shell", true, .userShell (line command .user 400) exitCode (toolText output 4000) truncated)

def buildRow (nearest : ℕ → ℕ) (item : TurnItem) : TranscriptRow :=
  let built := buildContent nearest item.content
  ⟨item.id, item.seq, built.1, built.2.1, built.2.2⟩

/-! ## The transcript -/

structure TranscriptState where
  rows : List TranscriptRow
  /-- The id of the row that is still streamed. -/
  activeId : Option Text
deriving DecidableEq

def emptyTranscript : TranscriptState := ⟨[], none⟩

/-- A row that is streamed becomes active, and one that is complete is not active any more. -/
def nextActive (activeId : Option Text) (built : TranscriptRow) : Option Text :=
  if !built.completed then some built.id
  else if activeId = some built.id then none
  else activeId

/-- Fold one item into the transcript. -/
def applyItem (nearest : ℕ → ℕ) (state : TranscriptState) (item : TurnItem) : TranscriptState :=
  let built := buildRow nearest item
  { rows := Keyed.putRow TranscriptRow.id state.rows built
    activeId := nextActive state.activeId built }

/-- The rows, the place of each id, and the id of the active row. -/
structure BulkState where
  placing : Keyed.Placing TranscriptRow Text
  activeId : Option Text

def bulkItem (nearest : ℕ → ℕ) (s : BulkState) (item : TurnItem) : BulkState :=
  let built := buildRow nearest item
  ⟨s.placing.put TranscriptRow.id built, nextActive s.activeId built⟩

/-- Fold a whole sequence of items. -/
def buildTranscript (nearest : ℕ → ℕ) (items : List TurnItem) : TranscriptState :=
  let s := items.foldl (bulkItem nearest) ⟨.empty, none⟩
  ⟨s.placing.rows, s.activeId⟩

/-! ## One transcript -/

section Fold

variable {nearest : ℕ → ℕ} {items : List TurnItem} {state : TranscriptState}

theorem rows_foldl_applyItem (nearest : ℕ → ℕ) (items : List TurnItem) (state : TranscriptState) :
    (items.foldl (applyItem nearest) state).rows =
      (items.map (buildRow nearest)).foldl (Keyed.putRow TranscriptRow.id) state.rows := by
  induction items generalizing state with
  | nil => rfl
  | cons item items ih => exact ih (applyItem nearest state item)

theorem rows_foldl_bulkItem (nearest : ℕ → ℕ) (items : List TurnItem) (s : BulkState) :
    (items.foldl (bulkItem nearest) s).placing =
      (items.map (buildRow nearest)).foldl (Keyed.Placing.put TranscriptRow.id) s.placing := by
  induction items generalizing s with
  | nil => rfl
  | cons item items ih => exact ih (bulkItem nearest s item)

theorem activeId_foldl (nearest : ℕ → ℕ) (items : List TurnItem) (s : BulkState)
    (state : TranscriptState) (h : s.activeId = state.activeId) :
    (items.foldl (bulkItem nearest) s).activeId =
      (items.foldl (applyItem nearest) state).activeId := by
  induction items generalizing s state with
  | nil => exact h
  | cons item items ih =>
    refine ih _ _ ?_
    rw [bulkItem, applyItem, h]

/-- The two ways to put a transcript together give the same. -/
theorem buildTranscript_eq (nearest : ℕ → ℕ) (items : List TurnItem) :
    buildTranscript nearest items = items.foldl (applyItem nearest) emptyTranscript := by
  have hrows : (buildTranscript nearest items).rows =
      (items.foldl (applyItem nearest) emptyTranscript).rows := by
    rw [rows_foldl_applyItem, buildTranscript, rows_foldl_bulkItem]
    exact Keyed.Placing.rows_foldl_put _
  have hactive : (buildTranscript nearest items).activeId =
      (items.foldl (applyItem nearest) emptyTranscript).activeId := activeId_foldl _ _ _ _ rfl
  rw [TranscriptState.mk.injEq]
  exact ⟨hrows, hactive⟩

/-- The active row is there and not complete. -/
def ActiveStreams (state : TranscriptState) : Prop :=
  ∀ id, state.activeId = some id → ∃ row ∈ state.rows, row.id = id ∧ row.completed = false

theorem ActiveStreams.applyItem (h : ActiveStreams state) (item : TurnItem) :
    ActiveStreams (applyItem nearest state item) := by
  intro id hid
  rw [Tui.applyItem] at hid
  dsimp only [nextActive] at hid
  split_ifs at hid with hcomplete hactive
  · refine ⟨buildRow nearest item, Keyed.mem_putRow_self, Option.some.inj hid, ?_⟩
    simpa using hcomplete
  · obtain ⟨row, hrow, rfl, hstreams⟩ := h id hid
    exact ⟨row, Keyed.mem_putRow_of_mem hrow fun heq ↦ hactive (hid.trans (congrArg some heq)), rfl,
      hstreams⟩

theorem activeStreams_foldl (items : List TurnItem) (h : ActiveStreams state) :
    ActiveStreams (items.foldl (Tui.applyItem nearest) state) := by
  induction items generalizing state with
  | nil => exact h
  | cons item items ih => exact ih (h.applyItem item)

/-- **The transcript of a history.** It is that of the items one by one: the rows are in the order
in which their ids first came, each built from the last item with its id, and the active row is
there and not complete. -/
theorem transcript_eq (nearest : ℕ → ℕ) (items : List TurnItem) :
    buildTranscript nearest items = items.foldl (applyItem nearest) emptyTranscript ∧
      (buildTranscript nearest items).rows.map TranscriptRow.id =
        Keyed.firsts id [] (items.map TurnItem.id) ∧
      (∀ row ∈ (buildTranscript nearest items).rows,
        ((items.filter fun item ↦ item.id = row.id).map (buildRow nearest)).getLast? = some row) ∧
      ActiveStreams (buildTranscript nearest items) := by
  have heq := buildTranscript_eq nearest items
  have hrows : (buildTranscript nearest items).rows =
      (items.map (buildRow nearest)).foldl (Keyed.putRow TranscriptRow.id) [] := by
    rw [heq, rows_foldl_applyItem]
    rfl
  refine ⟨heq, ?_, fun row hrow ↦ ?_, ?_⟩
  · rw [hrows, Keyed.map_key_foldl_putRow, List.map_map]
    rfl
  · rw [hrows] at hrow
    have hlast := Keyed.getLast?_of_mem_foldl_putRow _ hrow
    rwa [List.filter_map] at hlast
  · rw [heq]
    exact activeStreams_foldl items fun id hid ↦ absurd hid.symm (Option.some_ne_none id)

end Fold

end QwenHarness.Tui
