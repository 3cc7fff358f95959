import QwenHarness.Run.Timeline
import QwenHarness.Tui.Unicode

/-!
# The multiline input editor

The editor is a pure state machine. Its buffer is a list of lines, the cursor counts grapheme
clusters, and every edit keeps what was there before it for undo.

A text is a list of characters, as what is typed or pasted has no halves of surrogate pairs. What
the tables of Unicode say of a character is a parameter.
-/

namespace QwenHarness.Tui.Editor

open Run (bounded)

/-- What the tables say: `\p{L}` and `\p{N}` too. -/
structure EditorTests extends PropertyTests where
  letter : Char → Bool
  number : Char → Bool

abbrev Line := List Char

/-! ## Configuration and state -/

inductive VimMode
  | insert | normal
deriving DecidableEq, Repr

inductive SubmitKey
  | enter | ctrlEnter
deriving DecidableEq, Repr

structure EditorConfig where
  submit : SubmitKey
  maxUndo : ℕ
  maxHistory : ℕ
  vim : Bool
deriving DecidableEq, Repr

/-- `Partial<EditorConfig>`. -/
structure PartialConfig where
  submit : Option SubmitKey
  maxUndo : Option ℕ
  maxHistory : Option ℕ
  vim : Option Bool
deriving DecidableEq, Repr

def DEFAULT_EDITOR_CONFIG : EditorConfig := ⟨.enter, 200, 1000, false⟩

/-- A cursor position. `col` is a grapheme index within the line. -/
structure Cursor where
  row : ℕ
  col : ℕ
deriving DecidableEq, Repr

structure Snapshot where
  lines : List Line
  cursor : Cursor
  anchor : Option Cursor
deriving DecidableEq, Repr

structure EditorState where
  lines : List Line
  cursor : Cursor
  anchor : Option Cursor
  register : Line
  undo : List Snapshot
  redo : List Snapshot
  history : List Line
  historyIndex : Option ℕ
  draft : Option Line
  config : EditorConfig
  vimMode : VimMode
deriving DecidableEq, Repr

def startMode (config : EditorConfig) : VimMode := if config.vim then .normal else .insert

def createEditor (config : PartialConfig) : EditorState :=
  let merged : EditorConfig :=
    { submit := config.submit.getD DEFAULT_EDITOR_CONFIG.submit
      maxUndo := config.maxUndo.getD DEFAULT_EDITOR_CONFIG.maxUndo
      maxHistory := config.maxHistory.getD DEFAULT_EDITOR_CONFIG.maxHistory
      vim := config.vim.getD DEFAULT_EDITOR_CONFIG.vim }
  { lines := [[]]
    cursor := ⟨0, 0⟩
    anchor := none
    register := []
    undo := []
    redo := []
    history := []
    historyIndex := none
    draft := none
    config := merged
    vimMode := startMode merged }

/-- The full buffer as one text. -/
def bufferText (state : EditorState) : Line := ['\n'].intercalate state.lines

def withHistory (state : EditorState) (entries : List Line) : EditorState :=
  { state with history := entries }

section Operations

variable (T : EditorTests)

/-! ## Low-level buffer edit -/

/-- `toGraphemes` of a text of characters. -/
def graphemesOf (line : Line) : List Line := clusters T.toPropertyTests Char.toNat line

def countOf (line : Line) : ℕ := (graphemesOf T line).length

/-- `lines[row] ?? ''`. -/
def lineAt (lines : List Line) (row : ℕ) : Line := lines.getD row []

def lineGraphemes (state : EditorState) (row : ℕ) : List Line :=
  graphemesOf T (lineAt state.lines row)

def lineLen (state : EditorState) (row : ℕ) : ℕ := countOf T (lineAt state.lines row)

def lastRow (state : EditorState) : ℕ := state.lines.length - 1

/-- The graphemes from one index on and before another, joined. -/
def sliceGraphemes (graphemes : List Line) (start stop : ℕ) : Line :=
  ((graphemes.take stop).drop start).flatten

/-- Order two cursors so that the first precedes the second in the buffer. -/
def inOrder (a b : Cursor) : Cursor × Cursor :=
  if a.row < b.row ∨ (a.row = b.row ∧ a.col ≤ b.col) then (a, b) else (b, a)

/-- Replace the range of the buffer from `start` to `stop` by `insert`, whose newlines become line
breaks, and place the cursor behind it. -/
def replaceRange (lines : List Line) (start stop : Cursor) (insert : Line) : List Line × Cursor :=
  let startGraphemes := graphemesOf T (lineAt lines start.row)
  let stopGraphemes := graphemesOf T (lineAt lines stop.row)
  let before := sliceGraphemes startGraphemes 0 start.col
  let after := sliceGraphemes stopGraphemes stop.col stopGraphemes.length
  let parts := insert.splitOn '\n'
  if parts.length = 1 then
    let only := parts.headD []
    (lines.take start.row ++ [before ++ only ++ after] ++ lines.drop (stop.row + 1),
      ⟨start.row, countOf T (before ++ only)⟩)
  else
    let first := parts.headD []
    let last := parts.getLastD []
    (lines.take start.row ++ [before ++ first] ++ parts.tail.dropLast ++ [last ++ after] ++
        lines.drop (stop.row + 1),
      ⟨start.row + parts.length - 1, countOf T last⟩)

def snapshot (state : EditorState) : Snapshot := ⟨state.lines, state.cursor, state.anchor⟩

/-- Commit a buffer change: push the prior state to undo, clear redo, and leave history browsing. -/
def commit (state : EditorState) (next : List Line × Cursor) (anchor : Option Cursor) :
    EditorState :=
  { state with
    lines := next.1
    cursor := next.2
    anchor := anchor
    undo := bounded state.config.maxUndo (state.undo ++ [snapshot state])
    redo := []
    historyIndex := none
    draft := none }

/-! ## Selection and register -/

/-- The selection, or the cursor alone. -/
def selectionOf (state : EditorState) : Cursor × Cursor :=
  match state.anchor with
  | some anchor => inOrder anchor state.cursor
  | none => (state.cursor, state.cursor)

/-- The selected text, or nothing. -/
def selectedText (state : EditorState) : Line :=
  match state.anchor with
  | none => []
  | some anchor =>
    let range := inOrder anchor state.cursor
    let start := range.1
    let stop := range.2
    let graphemes := lineGraphemes T state start.row
    if start.row = stop.row then sliceGraphemes graphemes start.col stop.col
    else
      ['\n'].intercalate
        ([sliceGraphemes graphemes start.col graphemes.length] ++
          (List.range' (start.row + 1) (stop.row - (start.row + 1))).map (lineAt state.lines) ++
          [sliceGraphemes (lineGraphemes T state stop.row) 0 stop.col])

/-- Delete the current selection. -/
def deleteSelection (state : EditorState) : EditorState :=
  match state.anchor with
  | none => state
  | some anchor =>
    let range := inOrder anchor state.cursor
    commit state (replaceRange T state.lines range.1 range.2 []) none

/-- Drop the selection without changing the buffer. -/
def clearSelection (state : EditorState) : EditorState := { state with anchor := none }

/-- Copy the selection into the register. -/
def copySelection (state : EditorState) : EditorState :=
  match state.anchor with
  | none => state
  | some _ => { state with register := selectedText T state }

/-- Cut the selection. -/
def cut (state : EditorState) : EditorState :=
  match state.anchor with
  | none => state
  | some _ => deleteSelection T (copySelection T state)

/-! ## Text mutation -/

/-- Insert text at the cursor, replacing the selection. -/
def insertText (state : EditorState) (text : Line) : EditorState :=
  let range := selectionOf state
  commit state (replaceRange T state.lines range.1 range.2 text) none

def paste (state : EditorState) (text : Line) : EditorState := insertText T state text

def newline (state : EditorState) : EditorState := insertText T state ['\n']

/-- Paste the register at the cursor. -/
def pasteRegister (state : EditorState) : EditorState := insertText T state state.register

/-- Delete backward. -/
def backspace (state : EditorState) : EditorState :=
  if state.anchor.isSome then deleteSelection T state
  else
    let row := state.cursor.row
    let col := state.cursor.col
    if 0 < col then
      commit state (replaceRange T state.lines ⟨row, col - 1⟩ ⟨row, col⟩ []) none
    else if 0 < row then
      let start : Cursor := ⟨row - 1, lineLen T state (row - 1)⟩
      commit state (replaceRange T state.lines start ⟨row, 0⟩ []) none
    else state

/-- Delete forward. -/
def deleteForward (state : EditorState) : EditorState :=
  if state.anchor.isSome then deleteSelection T state
  else
    let row := state.cursor.row
    let col := state.cursor.col
    if col < lineLen T state row then
      commit state (replaceRange T state.lines ⟨row, col⟩ ⟨row, col + 1⟩ []) none
    else if row < lastRow state then
      commit state (replaceRange T state.lines ⟨row, col⟩ ⟨row + 1, 0⟩ []) none
    else state

/-! ## Cursor motion -/

/-- `select` extends the selection, otherwise it is dropped. -/
def moveTo (state : EditorState) (target : Cursor) (select : Bool) : EditorState :=
  { state with
    cursor := target
    anchor := if select then some (state.anchor.getD state.cursor) else none }

def moveLeft (state : EditorState) (select : Bool) : EditorState :=
  let row := state.cursor.row
  let col := state.cursor.col
  if 0 < col then moveTo state ⟨row, col - 1⟩ select
  else if 0 < row then moveTo state ⟨row - 1, lineLen T state (row - 1)⟩ select
  else moveTo state state.cursor select

def moveRight (state : EditorState) (select : Bool) : EditorState :=
  let row := state.cursor.row
  let col := state.cursor.col
  if col < lineLen T state row then moveTo state ⟨row, col + 1⟩ select
  else if row < lastRow state then moveTo state ⟨row + 1, 0⟩ select
  else moveTo state state.cursor select

def moveUp (state : EditorState) (select : Bool) : EditorState :=
  let row := state.cursor.row
  let col := state.cursor.col
  if row = 0 then moveTo state ⟨0, 0⟩ select
  else moveTo state ⟨row - 1, min col (lineLen T state (row - 1))⟩ select

def moveDown (state : EditorState) (select : Bool) : EditorState :=
  let row := state.cursor.row
  let col := state.cursor.col
  if lastRow state ≤ row then moveTo state ⟨row, lineLen T state row⟩ select
  else moveTo state ⟨row + 1, min col (lineLen T state (row + 1))⟩ select

def moveLineStart (state : EditorState) (select : Bool) : EditorState :=
  moveTo state ⟨state.cursor.row, 0⟩ select

def moveLineEnd (state : EditorState) (select : Bool) : EditorState :=
  moveTo state ⟨state.cursor.row, lineLen T state state.cursor.row⟩ select

def moveBufferStart (state : EditorState) (select : Bool) : EditorState :=
  moveTo state ⟨0, 0⟩ select

def moveBufferEnd (state : EditorState) (select : Bool) : EditorState :=
  moveTo state ⟨lastRow state, lineLen T state (lastRow state)⟩ select

/-- A letter or number in it, or an underscore alone. -/
def isWordGrapheme (grapheme : Line) : Bool :=
  decide (grapheme = ['_']) || grapheme.any fun c ↦ T.letter c || T.number c

/-- `while (i < graphemes.length && p(graphemes[i])) i += 1`. -/
def skipRight (p : Line → Bool) (graphemes : List Line) (i : ℕ) : ℕ :=
  i + ((graphemes.drop i).takeWhile p).length

/-- `while (i > 0 && p(graphemes[i - 1])) i -= 1`. -/
def skipLeft (p : Line → Bool) (graphemes : List Line) : ℕ → ℕ
  | 0 => 0
  | i + 1 => if p (graphemes.getD i []) then skipLeft p graphemes i else i + 1

def moveWordRight (state : EditorState) (select : Bool) : EditorState :=
  let row := state.cursor.row
  let col := state.cursor.col
  let graphemes := lineGraphemes T state row
  if graphemes.length ≤ col then
    if row < lastRow state then moveTo state ⟨row + 1, 0⟩ select
    else moveTo state state.cursor select
  else
    let i := skipRight (fun g ↦ !isWordGrapheme T g) graphemes col
    moveTo state ⟨row, skipRight (isWordGrapheme T) graphemes i⟩ select

def moveWordLeft (state : EditorState) (select : Bool) : EditorState :=
  let row := state.cursor.row
  let col := state.cursor.col
  let graphemes := lineGraphemes T state row
  if col = 0 then
    if 0 < row then moveTo state ⟨row - 1, lineLen T state (row - 1)⟩ select
    else moveTo state state.cursor select
  else
    let i := skipLeft (fun g ↦ !isWordGrapheme T g) graphemes col
    moveTo state ⟨row, skipLeft (isWordGrapheme T) graphemes i⟩ select

/-! ## Undo and redo -/

def undo (state : EditorState) : EditorState :=
  match state.undo.getLast? with
  | none => state
  | some prev =>
    { state with
      lines := prev.lines
      cursor := prev.cursor
      anchor := prev.anchor
      undo := state.undo.dropLast
      redo := bounded state.config.maxUndo (state.redo ++ [snapshot state]) }

def redo (state : EditorState) : EditorState :=
  match state.redo.getLast? with
  | none => state
  | some next =>
    { state with
      lines := next.lines
      cursor := next.cursor
      anchor := next.anchor
      redo := state.redo.dropLast
      undo := bounded state.config.maxUndo (state.undo ++ [snapshot state]) }

/-! ## History and submit -/

def loadBuffer (state : EditorState) (text : Line) (historyIndex : Option ℕ)
    (draft : Option Line) : EditorState :=
  let lines := text.splitOn '\n'
  let row := lines.length - 1
  { state with
    lines
    cursor := ⟨row, countOf T (lineAt lines row)⟩
    anchor := none
    historyIndex
    draft }

/-- Navigate to an older history entry, stashing the live draft on the first step. -/
def historyPrev (state : EditorState) : EditorState :=
  if state.history.length = 0 then state
  else
    match state.historyIndex with
    | none =>
      let index := state.history.length - 1
      loadBuffer T state (state.history.getD index []) (some index) (some (bufferText state))
    | some i =>
      loadBuffer T state (state.history.getD (i - 1) []) (some (i - 1)) state.draft

/-- Navigate to a newer entry; past the newest, restore the stashed draft. -/
def historyNext (state : EditorState) : EditorState :=
  match state.historyIndex with
  | none => state
  | some i =>
    if state.history.length ≤ i + 1 then loadBuffer T state (state.draft.getD []) none none
    else loadBuffer T state (state.history.getD (i + 1) []) (some (i + 1)) state.draft

def appendHistory (history : List Line) (text : Line) (max : ℕ) : List Line :=
  if history.getLast? = some text then history else bounded max (history ++ [text])

/-- Submit the buffer: the fresh editor, and what was submitted unless the buffer was empty. -/
def submit (state : EditorState) : EditorState × Option Line :=
  let text := bufferText state
  let history :=
    if text.isEmpty then state.history
    else appendHistory state.history text state.config.maxHistory
  ({ state with
      lines := [[]]
      cursor := ⟨0, 0⟩
      anchor := none
      undo := []
      redo := []
      history
      historyIndex := none
      draft := none
      vimMode := startMode state.config },
    if text.isEmpty then none else some text)

/-! ## Vim normal mode -/

def setMode (state : EditorState) (mode : VimMode) : EditorState := { state with vimMode := mode }

/-- Interpret one key in Vim normal mode. -/
def vimKey (state : EditorState) (key : String) : EditorState :=
  if state.config.vim = false then state
  else if key = "Escape" then setMode state .normal
  else if state.vimMode ≠ .normal then state
  else
    match key with
    | "h" => moveLeft T state false
    | "l" => moveRight T state false
    | "j" => moveDown T state false
    | "k" => moveUp T state false
    | "w" => moveWordRight T state false
    | "b" => moveWordLeft T state false
    | "0" => moveLineStart state false
    | "$" => moveLineEnd T state false
    | "x" => deleteForward T state
    | "D" => deleteSelection T (moveLineEnd T state true)
    | "i" => setMode state .insert
    | "a" => setMode (moveRight T state false) .insert
    | "A" => setMode (moveLineEnd T state false) .insert
    | "o" => setMode (newline T (moveLineEnd T state false)) .insert
    | _ => state

/-! ## Operations -/

inductive Motion
  | left | right | up | down | lineStart | lineEnd | bufferStart | bufferEnd | wordLeft | wordRight
deriving DecidableEq, Repr

def Motion.apply (motion : Motion) (state : EditorState) (select : Bool) : EditorState :=
  match motion with
  | left => moveLeft T state select
  | right => moveRight T state select
  | up => moveUp T state select
  | down => moveDown T state select
  | lineStart => moveLineStart state select
  | lineEnd => moveLineEnd T state select
  | bufferStart => moveBufferStart state select
  | bufferEnd => moveBufferEnd T state select
  | wordLeft => moveWordLeft T state select
  | wordRight => moveWordRight T state select

inductive Op
  | insertText (text : Line)
  | paste (text : Line)
  | newline
  | backspace
  | deleteForward
  | deleteSelection
  | clearSelection
  | copySelection
  | cut
  | pasteRegister
  | move (motion : Motion) (select : Bool)
  | undo
  | redo
  | withHistory (entries : List Line)
  | historyPrev
  | historyNext
  | submit
  | vimKey (key : String)
deriving DecidableEq, Repr

/-- One operation. -/
def step (op : Op) (state : EditorState) : EditorState :=
  match op with
  | .insertText text => insertText T state text
  | .paste text => paste T state text
  | .newline => newline T state
  | .backspace => backspace T state
  | .deleteForward => deleteForward T state
  | .deleteSelection => deleteSelection T state
  | .clearSelection => clearSelection state
  | .copySelection => copySelection T state
  | .cut => cut T state
  | .pasteRegister => pasteRegister T state
  | .move motion select => motion.apply T state select
  | .undo => undo state
  | .redo => redo state
  | .withHistory entries => withHistory state entries
  | .historyPrev => historyPrev T state
  | .historyNext => historyNext T state
  | .submit => (submit state).1
  | .vimKey key => vimKey T state key

end Operations

end QwenHarness.Tui.Editor
