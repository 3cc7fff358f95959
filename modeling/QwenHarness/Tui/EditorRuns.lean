import QwenHarness.Pattern.Pieces
import QwenHarness.Run.Along
import QwenHarness.Tui.Editor

/-!
# Runs of the editor

Whatever is typed, pasted, moved, taken back or loaded, the buffer has a line, no line has a break
in it, and the cursor and the anchor are places of the buffer. The same holds of all that undo and
redo can bring back.

An edit may join clusters where texts meet, so that a line has fewer of them than its parts. The
cursor is behind what was inserted all the same: more text behind a text never lessens its clusters.

Undo right after an edit brings back the state before it. Two keys of Vim move the cursor to the end
of the line first and edit then, and undo brings back only what was there in between.
-/

namespace QwenHarness.Tui.Editor

open Run (Timeline)

variable {T : EditorTests}

/-! ## Counting clusters -/

section Count

variable {P : PropertyTests} {α : Type} {cp : α → ℕ}

theorem length_finish_le (s : ClusterState α) (ch : α) :
    s.finish.length ≤ (clusterStep P cp s ch).finish.length := by
  rcases clusterStep_cases P cp s ch with ⟨hclusters, hcurrent⟩ | ⟨hne, hclusters, hcurrent⟩
  · have hfull : (s.current ++ [ch]).isEmpty = false := by
      exact List.isEmpty_eq_false_iff.mpr
        (List.append_ne_nil_of_right_ne_nil _ (List.cons_ne_nil _ _))
    rw [ClusterState.finish, ClusterState.finish, hclusters, hcurrent, hfull,
      if_neg Bool.false_ne_true, List.length_append, List.length_singleton]
    split_ifs
    · exact Nat.le_succ _
    · rw [List.length_append, List.length_singleton]
  · have hempty : s.current.isEmpty = false := List.isEmpty_eq_false_iff.mpr hne
    rw [ClusterState.finish, ClusterState.finish, hclusters, hcurrent, hempty,
      if_neg Bool.false_ne_true, List.isEmpty_cons, if_neg Bool.false_ne_true,
      List.length_append, List.length_append, List.length_append]
    exact Nat.le_add_right _ _

/-- More text behind a text never lessens its clusters. -/
theorem length_clusters_le (chs rest : List α) :
    (clusters P cp chs).length ≤ (clusters P cp (chs ++ rest)).length := by
  rw [clusters, clusters, List.foldl_append]
  generalize chs.foldl (clusterStep P cp) .start = s
  induction rest generalizing s with
  | nil => exact Nat.le_refl _
  | cons ch rest ih => exact Nat.le_trans (length_finish_le s ch) (ih _)

end Count

theorem countOf_le (T : EditorTests) (text rest : Line) :
    countOf T text ≤ countOf T (text ++ rest) :=
  length_clusters_le text rest

/-! ## Buffers -/

/-- The buffer has a line, and no line has a break in it. -/
structure IsBuffer (lines : List Line) : Prop where
  ne_nil : lines ≠ []
  notMem : ∀ line ∈ lines, '\n' ∉ line

/-- The cursor is in a row of the buffer, and at most behind the last cluster of its line. -/
def IsPlace (T : EditorTests) (lines : List Line) (c : Cursor) : Prop :=
  c.row < lines.length ∧ c.col ≤ countOf T (lineAt lines c.row)

variable {lines : List Line} {start stop : Cursor} {row i : ℕ}

theorem lineAt_append {a : List Line} {line : Line} {b : List Line} (h : a.length = row) :
    lineAt (a ++ line :: b) row = line := by
  rw [lineAt, List.getD_eq_getElem?_getD, List.getElem?_append_right (Nat.le_of_eq h), h,
    Nat.sub_self]
  rfl

theorem IsBuffer.notMem_lineAt (h : IsBuffer lines) (row : ℕ) : '\n' ∉ lineAt lines row := by
  rw [lineAt, List.getD_eq_getElem?_getD]
  rcases hline : lines[row]? with - | line
  · exact List.not_mem_nil
  · exact h.notMem line (List.mem_of_getElem? hline)

theorem notMem_sliceGraphemes {line : Line} (h : '\n' ∉ line) (a b : ℕ) :
    '\n' ∉ sliceGraphemes (graphemesOf T line) a b := by
  intro hmem
  obtain ⟨g, hg, hin⟩ := List.mem_flatten.mp hmem
  have hflatten : (graphemesOf T line).flatten = line := flatten_clusters line
  refine h (hflatten ▸ List.mem_flatten.mpr ⟨g, ?_, hin⟩)
  exact List.mem_of_mem_take (List.mem_of_mem_drop hg)

theorem notMem_splitOn {text part : Line} (h : part ∈ text.splitOn '\n') : '\n' ∉ part :=
  Pieces.not_mem_of_mem_splitOn h

/-- The buffer of a text. -/
theorem isBuffer_splitOn (text : Line) : IsBuffer (text.splitOn '\n') :=
  ⟨List.splitOn_ne_nil _ _, fun _ ↦ notMem_splitOn⟩

/-- Lines in the place of others, the cursor in the last of them. -/
theorem isPlace_splice (h : IsBuffer lines) (hrow : row < lines.length) {init : List Line}
    {last : Line} (hinit : ∀ line ∈ init, '\n' ∉ line) (hlast : '\n' ∉ last) {col : ℕ}
    (hcol : col ≤ countOf T last) (n : ℕ) :
    IsBuffer (lines.take row ++ init ++ [last] ++ lines.drop n) ∧
      IsPlace T (lines.take row ++ init ++ [last] ++ lines.drop n) ⟨row + init.length, col⟩ := by
  have hlength : (lines.take row ++ init).length = row + init.length := by
    rw [List.length_append, List.length_take, Nat.min_eq_left (Nat.le_of_lt hrow)]
  rw [List.append_assoc _ [last], List.singleton_append]
  refine ⟨⟨?_, ?_⟩, ?_, ?_⟩
  · exact List.append_ne_nil_of_right_ne_nil _ (List.cons_ne_nil _ _)
  · intro line hline
    rcases List.mem_append.mp hline with hline | hline
    · rcases List.mem_append.mp hline with hline | hline
      · exact h.notMem line (List.mem_of_mem_take hline)
      · exact hinit line hline
    · rcases List.mem_cons.mp hline with rfl | hline
      · exact hlast
      · exact h.notMem line (List.mem_of_mem_drop hline)
  · rw [List.length_append, hlength, List.length_cons]
    exact Nat.lt_add_of_pos_right (Nat.succ_pos _)
  · rwa [lineAt_append hlength]

theorem notMem_append {a b : Line} (ha : '\n' ∉ a) (hb : '\n' ∉ b) : '\n' ∉ a ++ b :=
  fun h ↦ (List.mem_append.mp h).elim ha hb

/-- **Replacing a range** keeps a buffer, and the cursor behind what was inserted is a place. -/
theorem isPlace_replaceRange (h : IsBuffer lines) (hstart : start.row < lines.length)
    (stop : Cursor) (insert : Line) :
    IsBuffer (replaceRange T lines start stop insert).1 ∧
      IsPlace T (replaceRange T lines start stop insert).1
        (replaceRange T lines start stop insert).2 := by
  have hbefore := notMem_sliceGraphemes (T := T) (h.notMem_lineAt start.row) 0 start.col
  have hafter := notMem_sliceGraphemes (T := T) (h.notMem_lineAt stop.row) stop.col
    (graphemesOf T (lineAt lines stop.row)).length
  have hparts : ∀ part ∈ insert.splitOn '\n', '\n' ∉ part := fun _ ↦ notMem_splitOn
  have hne := List.splitOn_ne_nil '\n' insert
  rw [replaceRange]
  dsimp only
  generalize insert.splitOn '\n' = parts at hparts hne
  obtain ⟨first, rest, rfl⟩ := List.exists_cons_of_ne_nil hne
  rw [List.forall_mem_cons] at hparts
  obtain ⟨hfirst, hrest⟩ := hparts
  split_ifs with hone
  · have hcol := countOf_le T
      (sliceGraphemes (graphemesOf T (lineAt lines start.row)) 0 start.col ++ first)
      (sliceGraphemes (graphemesOf T (lineAt lines stop.row)) stop.col
        (graphemesOf T (lineAt lines stop.row)).length)
    have hnil : ∀ line ∈ ([] : List Line), '\n' ∉ line := fun _ h ↦ absurd h List.not_mem_nil
    have hsplice := isPlace_splice h hstart hnil
      (notMem_append (notMem_append hbefore hfirst) hafter) hcol (stop.row + 1)
    rwa [List.append_nil] at hsplice
  · obtain ⟨middle, last, rfl⟩ : ∃ middle last, rest = middle ++ [last] := by
      rcases List.eq_nil_or_concat rest with rfl | ⟨middle, last, rfl⟩
      · exact absurd rfl hone
      · exact ⟨middle, last, List.concat_eq_append⟩
    have hlines : ∀ line ∈ (sliceGraphemes (graphemesOf T (lineAt lines start.row)) 0 start.col ++
        first) :: middle, '\n' ∉ line := by
      refine List.forall_mem_cons.mpr ⟨notMem_append hbefore hfirst, fun line hline ↦ ?_⟩
      exact hrest line (List.mem_append_left _ hline)
    have hlast := hrest last (List.mem_append_right _ List.mem_cons_self)
    have hsplice := isPlace_splice h hstart hlines (notMem_append hlast hafter)
      (countOf_le T last _) (stop.row + 1)
    have hgetLast : (first :: (middle ++ [last])).getLastD [] = last := by
      rw [← List.cons_append, List.getLastD_concat]
    have hrows : start.row + (first :: (middle ++ [last])).length - 1 =
        start.row + ((sliceGraphemes (graphemesOf T (lineAt lines start.row)) 0 start.col ++
          first) :: middle).length := by
      rw [List.length_cons, List.length_cons, List.length_append, List.length_singleton]
      omega
    rw [hgetLast, hrows, List.tail_cons, List.dropLast_concat, List.headD_cons,
      List.append_assoc _ [_] middle]
    exact hsplice

/-! ## The invariant -/

/-- A buffer, with a cursor and an anchor that are places of it. -/
structure Snapshot.IsWell (T : EditorTests) (p : Snapshot) : Prop where
  isBuffer : IsBuffer p.lines
  cursor : IsPlace T p.lines p.cursor
  anchor : ∀ anchor, p.anchor = some anchor → IsPlace T p.lines anchor

/-- What is there, what undo brings back, and what redo does. -/
def timeline (s : EditorState) : Timeline Snapshot := ⟨snapshot s, s.undo, s.redo⟩

/-- All that is there or can be brought back is well, there is room to take everything back, and the
configuration stays. -/
structure Inv (T : EditorTests) (c : EditorConfig) (s : EditorState) : Prop where
  well : (timeline s).All (Snapshot.IsWell T)
  fits : (timeline s).Fits c.maxUndo
  config_eq : s.config = c

variable {c : EditorConfig} {s s' : EditorState} {target : Cursor} {op : Op}

theorem timeline_commit (s : EditorState) (next : List Line × Cursor) (anchor : Option Cursor) :
    timeline (commit s next anchor) =
      (timeline s).commit s.config.maxUndo ⟨next.1, next.2, anchor⟩ := rfl

theorem timeline_undo (s : EditorState) :
    timeline (undo s) = (timeline s).undo s.config.maxUndo := by
  rcases hlast : s.undo.getLast? with - | prev
  · have hstay : undo s = s := by rw [undo, hlast]
    have hnone : (timeline s).past.getLast? = none := hlast
    rw [hstay, Timeline.undo, hnone]
  · have hsome : (timeline s).past.getLast? = some prev := hlast
    rw [undo, hlast, Timeline.undo_of_getLast? hsome]
    rfl

theorem timeline_redo (s : EditorState) :
    timeline (redo s) = (timeline s).redo s.config.maxUndo := by
  rcases hlast : s.redo.getLast? with - | next
  · have hstay : redo s = s := by rw [redo, hlast]
    have hnone : (timeline s).future.getLast? = none := hlast
    rw [hstay, Timeline.redo, hnone]
  · have hsome : (timeline s).future.getLast? = some next := hlast
    rw [redo, hlast, Timeline.redo_of_getLast? hsome]
    rfl

namespace Inv

theorem isBuffer (h : Inv T c s) : IsBuffer s.lines := h.well.present.isBuffer

theorem cursor (h : Inv T c s) : IsPlace T s.lines s.cursor := h.well.present.cursor

theorem anchor (h : Inv T c s) {anchor : Cursor} (hanchor : s.anchor = some anchor) :
    IsPlace T s.lines anchor := h.well.present.anchor anchor hanchor

/-- Another present, with the same pasts and futures. -/
theorem of_present (h : Inv T c s) (hwell : (snapshot s').IsWell T) (hundo : s'.undo = s.undo)
    (hredo : s'.redo = s.redo) (hconfig : s'.config = s.config) : Inv T c s' := by
  refine ⟨⟨hwell, ?_, ?_⟩, ?_, hconfig.trans h.config_eq⟩
  · rw [timeline, hundo]
    exact h.well.past
  · rw [timeline, hredo]
    exact h.well.future
  · have hfits := h.fits
    rw [Timeline.Fits, timeline] at hfits ⊢
    rwa [hundo, hredo]

/-! ### Moving -/

theorem moveTo (h : Inv T c s) (htarget : IsPlace T s.lines target) (select : Bool) :
    Inv T c (moveTo s target select) := by
  refine h.of_present ⟨h.isBuffer, htarget, fun anchor hanchor ↦ ?_⟩ rfl rfl rfl
  rw [snapshot, Editor.moveTo] at hanchor
  dsimp only at hanchor
  rcases select with - | -
  · exact absurd hanchor.symm (Option.some_ne_none _)
  · rw [if_pos rfl, Option.some.injEq] at hanchor
    rw [← hanchor]
    rcases hs : s.anchor with - | a
    · exact h.cursor
    · exact h.anchor hs

theorem isPlace_of_le {col : ℕ} (hrow : row < lines.length)
    (hcol : col ≤ countOf T (lineAt lines row)) : IsPlace T lines ⟨row, col⟩ := ⟨hrow, hcol⟩

theorem isPlace_lineEnd (hrow : row < lines.length) :
    IsPlace T lines ⟨row, countOf T (lineAt lines row)⟩ := ⟨hrow, Nat.le_refl _⟩

theorem isPlace_lineStart (hrow : row < lines.length) : IsPlace T lines ⟨row, 0⟩ :=
  ⟨hrow, Nat.zero_le _⟩

theorem succ_row_lt (h : row < lastRow s) : row + 1 < s.lines.length := by
  rw [lastRow] at h
  omega

theorem lastRow_lt (h : Inv T c s) : lastRow s < s.lines.length :=
  Nat.sub_lt (List.length_pos_of_ne_nil h.isBuffer.ne_nil) Nat.one_pos

theorem moveLeft (h : Inv T c s) (select : Bool) : Inv T c (moveLeft T s select) := by
  have hrow := h.cursor.1
  rw [Editor.moveLeft]
  split_ifs with hcol hfirst
  · exact h.moveTo (isPlace_of_le hrow (Nat.le_trans (Nat.sub_le _ _) h.cursor.2)) select
  · exact h.moveTo (isPlace_lineEnd (Nat.lt_of_le_of_lt (Nat.sub_le _ _) hrow)) select
  · exact h.moveTo h.cursor select

theorem moveRight (h : Inv T c s) (select : Bool) : Inv T c (moveRight T s select) := by
  rw [Editor.moveRight]
  split_ifs with hcol hlast
  · exact h.moveTo (isPlace_of_le h.cursor.1 hcol) select
  · exact h.moveTo (isPlace_lineStart (succ_row_lt hlast)) select
  · exact h.moveTo h.cursor select

theorem moveUp (h : Inv T c s) (select : Bool) : Inv T c (moveUp T s select) := by
  have hrow := h.cursor.1
  rw [Editor.moveUp]
  split_ifs with hfirst
  · exact h.moveTo (isPlace_lineStart (hfirst ▸ hrow)) select
  · exact h.moveTo
      (isPlace_of_le (Nat.lt_of_le_of_lt (Nat.sub_le _ _) hrow) (Nat.min_le_right _ _)) select

theorem moveDown (h : Inv T c s) (select : Bool) : Inv T c (moveDown T s select) := by
  rw [Editor.moveDown]
  split_ifs with hlast
  · exact h.moveTo (isPlace_lineEnd h.cursor.1) select
  · exact h.moveTo
      (isPlace_of_le (succ_row_lt (Nat.not_le.mp hlast)) (Nat.min_le_right _ _)) select

theorem moveLineStart (h : Inv T c s) (select : Bool) : Inv T c (moveLineStart s select) :=
  h.moveTo (isPlace_lineStart h.cursor.1) select

theorem moveLineEnd (h : Inv T c s) (select : Bool) : Inv T c (moveLineEnd T s select) :=
  h.moveTo (isPlace_lineEnd h.cursor.1) select

theorem moveBufferStart (h : Inv T c s) (select : Bool) : Inv T c (moveBufferStart s select) :=
  h.moveTo (isPlace_lineStart (List.length_pos_of_ne_nil h.isBuffer.ne_nil)) select

theorem moveBufferEnd (h : Inv T c s) (select : Bool) : Inv T c (moveBufferEnd T s select) :=
  h.moveTo (isPlace_lineEnd h.lastRow_lt) select

theorem skipRight_le {p : Line → Bool} {graphemes : List Line} (h : i ≤ graphemes.length) :
    skipRight p graphemes i ≤ graphemes.length := by
  have htake := (List.takeWhile_sublist (p := p) (l := graphemes.drop i)).length_le
  rw [List.length_drop] at htake
  rw [skipRight]
  omega

theorem skipLeft_le (p : Line → Bool) (graphemes : List Line) (i : ℕ) :
    skipLeft p graphemes i ≤ i := by
  induction i with
  | zero => exact Nat.le_refl 0
  | succ i ih =>
    rw [skipLeft]
    split_ifs
    · exact Nat.le_succ_of_le ih
    · exact Nat.le_refl _

theorem moveWordRight (h : Inv T c s) (select : Bool) : Inv T c (moveWordRight T s select) := by
  have hcol : s.cursor.col ≤ (lineGraphemes T s s.cursor.row).length := h.cursor.2
  rw [Editor.moveWordRight]
  dsimp only
  split_ifs with hend hlast
  · exact h.moveTo (isPlace_lineStart (succ_row_lt hlast)) select
  · exact h.moveTo h.cursor select
  · have hword := skipRight_le (p := isWordGrapheme T)
      (skipRight_le (p := fun g ↦ !isWordGrapheme T g) hcol)
    exact h.moveTo (isPlace_of_le h.cursor.1 hword) select

theorem moveWordLeft (h : Inv T c s) (select : Bool) : Inv T c (moveWordLeft T s select) := by
  have hrow := h.cursor.1
  rw [Editor.moveWordLeft]
  dsimp only
  split_ifs with hstart hfirst
  · exact h.moveTo (isPlace_lineEnd (Nat.lt_of_le_of_lt (Nat.sub_le _ _) hrow)) select
  · exact h.moveTo h.cursor select
  · refine h.moveTo (isPlace_of_le hrow ?_) select
    exact Nat.le_trans (skipLeft_le _ _ _) (Nat.le_trans (skipLeft_le _ _ _) h.cursor.2)

theorem motion (h : Inv T c s) (motion : Motion) (select : Bool) :
    Inv T c (motion.apply T s select) := by
  cases motion with
  | left => exact h.moveLeft select
  | right => exact h.moveRight select
  | up => exact h.moveUp select
  | down => exact h.moveDown select
  | lineStart => exact h.moveLineStart select
  | lineEnd => exact h.moveLineEnd select
  | bufferStart => exact h.moveBufferStart select
  | bufferEnd => exact h.moveBufferEnd select
  | wordLeft => exact h.moveWordLeft select
  | wordRight => exact h.moveWordRight select

/-! ### Editing -/

/-- A range that begins in the buffer is replaced. -/
theorem replace (h : Inv T c s) (start : Cursor) (hstart : start.row < s.lines.length)
    (stop : Cursor) (text : Line) :
    Inv T c (commit s (replaceRange T s.lines start stop text) none) := by
  obtain ⟨hbuffer, hplace⟩ := isPlace_replaceRange (T := T) h.isBuffer hstart stop text
  refine ⟨?_, ?_, h.config_eq⟩
  · rw [timeline_commit]
    exact h.well.commit
      ⟨hbuffer, hplace, fun _ hanchor ↦ absurd hanchor.symm (Option.some_ne_none _)⟩
  · rw [timeline_commit, h.config_eq]
    exact Timeline.fits_commit (timeline s) _

theorem row_inOrder {a b : Cursor} (ha : a.row < lines.length) (hb : b.row < lines.length) :
    (inOrder a b).1.row < lines.length := by
  rw [inOrder]
  split_ifs
  · exact ha
  · exact hb

theorem row_selectionOf (h : Inv T c s) : (selectionOf s).1.row < s.lines.length := by
  rw [selectionOf]
  rcases hanchor : s.anchor with - | anchor
  · exact h.cursor.1
  · exact row_inOrder (h.anchor hanchor).1 h.cursor.1

theorem insertText (h : Inv T c s) (text : Line) : Inv T c (insertText T s text) :=
  h.replace _ h.row_selectionOf _ text

theorem deleteSelection (h : Inv T c s) : Inv T c (deleteSelection T s) := by
  rw [Editor.deleteSelection]
  rcases hanchor : s.anchor with - | anchor
  · exact h
  · exact h.replace _ (row_inOrder (h.anchor hanchor).1 h.cursor.1) _ []

theorem clearSelection (h : Inv T c s) : Inv T c (clearSelection s) :=
  h.of_present ⟨h.isBuffer, h.cursor, fun _ hanchor ↦ absurd hanchor.symm (Option.some_ne_none _)⟩
    rfl rfl rfl

theorem copySelection (h : Inv T c s) : Inv T c (copySelection T s) := by
  rw [Editor.copySelection]
  split
  · exact h
  · exact h.of_present h.well.present rfl rfl rfl

theorem cut (h : Inv T c s) : Inv T c (cut T s) := by
  rw [Editor.cut]
  split
  · exact h
  · exact h.copySelection.deleteSelection

theorem backspace (h : Inv T c s) : Inv T c (backspace T s) := by
  have hrow := h.cursor.1
  rw [Editor.backspace]
  dsimp only
  split_ifs with hanchor hcol hfirst
  · exact h.deleteSelection
  · exact h.replace ⟨s.cursor.row, s.cursor.col - 1⟩ hrow _ []
  · exact h.replace ⟨_, _⟩ (Nat.lt_of_le_of_lt (Nat.sub_le _ _) hrow) _ []
  · exact h

theorem deleteForward (h : Inv T c s) : Inv T c (deleteForward T s) := by
  rw [Editor.deleteForward]
  dsimp only
  split_ifs with hanchor hcol hlast
  · exact h.deleteSelection
  · exact h.replace ⟨_, _⟩ h.cursor.1 _ []
  · exact h.replace ⟨_, _⟩ h.cursor.1 _ []
  · exact h

/-! ### Undo, history and modes -/

theorem config_undo (s : EditorState) : (undo s).config = s.config := by
  rw [Editor.undo]
  split
  · rfl
  · rfl

theorem config_redo (s : EditorState) : (redo s).config = s.config := by
  rw [Editor.redo]
  split
  · rfl
  · rfl

theorem undo (h : Inv T c s) : Inv T c (undo s) := by
  refine ⟨?_, ?_, (config_undo s).trans h.config_eq⟩
  · rw [timeline_undo]
    exact h.well.undo
  · rw [timeline_undo, h.config_eq]
    exact h.fits.undo

theorem redo (h : Inv T c s) : Inv T c (redo s) := by
  refine ⟨?_, ?_, (config_redo s).trans h.config_eq⟩
  · rw [timeline_redo]
    exact h.well.redo
  · rw [timeline_redo, h.config_eq]
    exact h.fits.redo

theorem loadBuffer (h : Inv T c s) (text : Line) (historyIndex : Option ℕ) (draft : Option Line) :
    Inv T c (loadBuffer T s text historyIndex draft) := by
  have hbuffer := isBuffer_splitOn text
  have hlast : (text.splitOn '\n').length - 1 < (text.splitOn '\n').length :=
    Nat.sub_lt (List.length_pos_of_ne_nil hbuffer.ne_nil) Nat.one_pos
  exact h.of_present ⟨hbuffer, isPlace_lineEnd hlast,
    fun _ hanchor ↦ absurd hanchor.symm (Option.some_ne_none _)⟩ rfl rfl rfl

theorem historyPrev (h : Inv T c s) : Inv T c (historyPrev T s) := by
  rw [Editor.historyPrev]
  split_ifs
  · exact h
  · split
    · exact h.loadBuffer _ _ _
    · exact h.loadBuffer _ _ _

theorem historyNext (h : Inv T c s) : Inv T c (historyNext T s) := by
  rw [Editor.historyNext]
  split
  · exact h
  · split_ifs
    · exact h.loadBuffer _ _ _
    · exact h.loadBuffer _ _ _

theorem isWell_start : (⟨[[]], ⟨0, 0⟩, none⟩ : Snapshot).IsWell T :=
  ⟨⟨List.cons_ne_nil _ _, fun _ hline ↦ List.mem_singleton.mp hline ▸ List.not_mem_nil⟩,
    isPlace_lineStart Nat.one_pos, fun _ hanchor ↦ absurd hanchor.symm (Option.some_ne_none _)⟩

/-- An empty buffer with nothing to take back. -/
theorem of_start (s : EditorState) (hsnapshot : snapshot s = ⟨[[]], ⟨0, 0⟩, none⟩)
    (hundo : s.undo = []) (hredo : s.redo = []) (hconfig : s.config = c) : Inv T c s := by
  have htimeline : timeline s = ⟨⟨[[]], ⟨0, 0⟩, none⟩, [], []⟩ := by
    rw [timeline, hsnapshot, hundo, hredo]
  refine ⟨?_, ?_, hconfig⟩
  · rw [htimeline]
    exact ⟨isWell_start, fun _ ha ↦ absurd ha List.not_mem_nil,
      fun _ ha ↦ absurd ha List.not_mem_nil⟩
  · rw [htimeline]
    exact Nat.zero_le _

theorem createEditor (config : PartialConfig) :
    Inv T (createEditor config).config (createEditor config) := of_start _ rfl rfl rfl rfl

theorem setMode (h : Inv T c s) (mode : VimMode) : Inv T c (setMode s mode) :=
  h.of_present h.well.present rfl rfl rfl

theorem vimKey (h : Inv T c s) (key : String) : Inv T c (vimKey T s key) := by
  unfold Editor.vimKey
  split_ifs
  · exact h
  · exact h.setMode .normal
  · exact h
  · split
    · exact h.moveLeft false
    · exact h.moveRight false
    · exact h.moveDown false
    · exact h.moveUp false
    · exact h.moveWordRight false
    · exact h.moveWordLeft false
    · exact h.moveLineStart false
    · exact h.moveLineEnd false
    · exact h.deleteForward
    · exact (h.moveLineEnd true).deleteSelection
    · exact h.setMode .insert
    · exact (h.moveRight false).setMode .insert
    · exact (h.moveLineEnd false).setMode .insert
    · exact ((h.moveLineEnd false).insertText _).setMode .insert
    · exact h

/-- **A step keeps the invariant.** -/
theorem step (h : Inv T c s) (op : Op) : Inv T c (step T op s) := by
  cases op with
  | insertText text => exact h.insertText text
  | paste text => exact h.insertText text
  | newline => exact h.insertText _
  | backspace => exact h.backspace
  | deleteForward => exact h.deleteForward
  | deleteSelection => exact h.deleteSelection
  | clearSelection => exact h.clearSelection
  | copySelection => exact h.copySelection
  | cut => exact h.cut
  | pasteRegister => exact h.insertText _
  | move motion select => exact h.motion motion select
  | undo => exact h.undo
  | redo => exact h.redo
  | withHistory entries => exact h.of_present h.well.present rfl rfl rfl
  | historyPrev => exact h.historyPrev
  | historyNext => exact h.historyNext
  | submit => exact of_start _ rfl rfl rfl h.config_eq
  | vimKey key => exact h.vimKey key

/-- **A run keeps the invariant.** -/
theorem run (h : Inv T c s) (ops : List Op) : Inv T c (Run.run (Editor.step T) ops s) := by
  induction ops generalizing s with
  | nil => exact h
  | cons op ops ih => exact ih (h.step op)

end Inv

/-! ## Runs -/

/-- The editor after a sequence of operations. -/
def reached (T : EditorTests) (config : PartialConfig) (ops : List Op) : EditorState :=
  Run.run (step T) ops (createEditor config)

/-! ## Taking back an edit -/

/-- There is something to delete before the cursor. -/
def HasBefore (s : EditorState) : Prop :=
  s.anchor.isSome = true ∨ 0 < s.cursor.col ∨ 0 < s.cursor.row

/-- There is something to delete behind the cursor. -/
def HasBehind (T : EditorTests) (s : EditorState) : Prop :=
  s.anchor.isSome = true ∨ s.cursor.col < lineLen T s s.cursor.row ∨ s.cursor.row < lastRow s

/-- The key is a command and edits. -/
def IsEditKey (T : EditorTests) (key : String) (s : EditorState) : Prop :=
  (s.config.vim = true ∧ s.vimMode = .normal) ∧
    ((key = "x" ∧ HasBehind T s) ∨ key = "D" ∨ key = "o")

/-- The operation edits the buffer. -/
def IsEdit (T : EditorTests) (op : Op) (s : EditorState) : Prop :=
  match op with
  | .insertText _ => True
  | .paste _ => True
  | .newline => True
  | .pasteRegister => True
  | .backspace => HasBefore s
  | .deleteForward => HasBehind T s
  | .deleteSelection => s.anchor.isSome = true
  | .cut => s.anchor.isSome = true
  | .vimKey key => IsEditKey T key s
  | _ => False

/-- What an edit commits over: the state before it, but for two keys of Vim that move first. -/
def committedOver (T : EditorTests) (op : Op) (s : EditorState) : EditorState :=
  if op = .vimKey "D" then moveLineEnd T s true
  else if op = .vimKey "o" then moveLineEnd T s false
  else s

/-- A step whose timeline is a commit over another state. -/
def CommitsOver (s s' : EditorState) : Prop :=
  ∃ next, timeline s' = (timeline s).commit s.config.maxUndo next ∧ s'.config = s.config

theorem commitsOver_commit (s : EditorState) (next : List Line × Cursor) (anchor : Option Cursor) :
    CommitsOver s (commit s next anchor) := ⟨_, timeline_commit s next anchor, rfl⟩

theorem commitsOver_deleteSelection (h : s.anchor.isSome = true) :
    CommitsOver s (deleteSelection T s) := by
  obtain ⟨anchor, hanchor⟩ := Option.isSome_iff_exists.mp h
  rw [deleteSelection, hanchor]
  exact commitsOver_commit _ _ _

theorem commitsOver_cut (h : s.anchor.isSome = true) : CommitsOver s (cut T s) := by
  obtain ⟨anchor, hanchor⟩ := Option.isSome_iff_exists.mp h
  have hcopy : copySelection T s = { s with register := selectedText T s } := by
    rw [copySelection, hanchor]
  rw [cut, hanchor]
  have hdelete : CommitsOver (copySelection T s) (deleteSelection T (copySelection T s)) := by
    refine commitsOver_deleteSelection ?_
    rwa [hcopy]
  rw [hcopy] at hdelete ⊢
  exact hdelete

theorem commitsOver_backspace (h : HasBefore s) : CommitsOver s (backspace T s) := by
  rw [backspace]
  dsimp only
  split_ifs with hanchor hcol hrow
  · exact commitsOver_deleteSelection hanchor
  · exact commitsOver_commit _ _ _
  · exact commitsOver_commit _ _ _
  · exact absurd h (not_or.mpr ⟨hanchor, not_or.mpr ⟨hcol, hrow⟩⟩)

theorem commitsOver_deleteForward (h : HasBehind T s) : CommitsOver s (deleteForward T s) := by
  rw [deleteForward]
  dsimp only
  split_ifs with hanchor hcol hrow
  · exact commitsOver_deleteSelection hanchor
  · exact commitsOver_commit _ _ _
  · exact commitsOver_commit _ _ _
  · exact absurd h (not_or.mpr ⟨hanchor, not_or.mpr ⟨hcol, hrow⟩⟩)

/-- What a key does in normal mode is what its command does. -/
theorem vimKey_normal (hvim : s.config.vim = true ∧ s.vimMode = .normal) :
    vimKey T s "x" = deleteForward T s ∧
      vimKey T s "D" = deleteSelection T (moveLineEnd T s true) ∧
      vimKey T s "o" = setMode (newline T (moveLineEnd T s false)) .insert := by
  have hon : ¬ s.config.vim = false := by rw [hvim.1]; decide
  have hmode : ¬ s.vimMode ≠ .normal := not_not.mpr hvim.2
  refine ⟨?_, ?_, ?_⟩
  · rw [vimKey, if_neg hon, if_neg (by decide), if_neg hmode]
  · rw [vimKey, if_neg hon, if_neg (by decide), if_neg hmode]
  · rw [vimKey, if_neg hon, if_neg (by decide), if_neg hmode]

theorem commitsOver_vimKey {key : String} (h : IsEditKey T key s) :
    CommitsOver (committedOver T (.vimKey key) s) (vimKey T s key) := by
  obtain ⟨hx, hD, ho⟩ := vimKey_normal (T := T) h.1
  rcases h.2 with ⟨rfl, hbehind⟩ | rfl | rfl
  · rw [hx, committedOver, if_neg (by decide), if_neg (by decide)]
    exact commitsOver_deleteForward hbehind
  · rw [hD, committedOver, if_pos rfl]
    exact commitsOver_deleteSelection rfl
  · rw [ho, committedOver, if_neg (by decide), if_pos rfl]
    exact ⟨_, timeline_commit (moveLineEnd T s false) _ _, rfl⟩

/-- **An edit is a commit.** -/
theorem commitsOver_step (h : IsEdit T op s) :
    CommitsOver (committedOver T op s) (step T op s) := by
  cases op with
  | insertText text => exact commitsOver_commit _ _ _
  | paste text => exact commitsOver_commit _ _ _
  | newline => exact commitsOver_commit _ _ _
  | backspace => exact commitsOver_backspace h
  | deleteForward => exact commitsOver_deleteForward h
  | deleteSelection => exact commitsOver_deleteSelection h
  | cut => exact commitsOver_cut h
  | pasteRegister => exact commitsOver_commit _ _ _
  | vimKey key => exact commitsOver_vimKey h
  | clearSelection => exact absurd h not_false
  | copySelection => exact absurd h not_false
  | move motion select => exact absurd h not_false
  | undo => exact absurd h not_false
  | redo => exact absurd h not_false
  | withHistory entries => exact absurd h not_false
  | historyPrev => exact absurd h not_false
  | historyNext => exact absurd h not_false
  | submit => exact absurd h not_false

theorem config_committedOver (T : EditorTests) (op : Op) (s : EditorState) :
    (committedOver T op s).config = s.config := by
  rw [committedOver]
  split_ifs
  · rfl
  · rfl
  · rfl

/-- Undo right after an edit brings back what the edit commits over. -/
theorem snapshot_undo_step (h : IsEdit T op s) (hmax : 1 ≤ s.config.maxUndo) :
    snapshot (undo (step T op s)) = snapshot (committedOver T op s) := by
  obtain ⟨next, htimeline, hconfig⟩ := commitsOver_step h
  have hpresent : snapshot (undo (step T op s)) = (timeline (undo (step T op s))).present := rfl
  rw [config_committedOver] at htimeline hconfig
  rw [hpresent, timeline_undo, htimeline, hconfig, Timeline.undo_commit_present hmax]
  rfl

/-- The two keys that move first find the cursor where they would move it, and the anchor as they
would leave it. -/
def KeepsPlace (T : EditorTests) (op : Op) (s : EditorState) : Prop :=
  (op = .vimKey "D" → s.cursor.col = lineLen T s s.cursor.row ∧ s.anchor ≠ none) ∧
    (op = .vimKey "o" → s.cursor.col = lineLen T s s.cursor.row ∧ s.anchor = none)

theorem snapshot_moveLineEnd_iff (select : Bool) :
    snapshot (moveLineEnd T s select) = snapshot s ↔
      s.cursor.col = lineLen T s s.cursor.row ∧
        (if select then some (s.anchor.getD s.cursor) else none) = s.anchor := by
  have hlines : (moveLineEnd T s select).lines = s.lines := rfl
  rw [snapshot, snapshot, Snapshot.mk.injEq, and_iff_right hlines]
  have hcursor : (moveLineEnd T s select).cursor = s.cursor ↔
      s.cursor.col = lineLen T s s.cursor.row := by
    rw [moveLineEnd, moveTo]
    constructor
    · intro heq
      exact (congrArg Cursor.col heq).symm
    · intro heq
      rw [← heq]
  exact and_congr_left fun _ ↦ hcursor

theorem snapshot_committedOver_iff :
    snapshot (committedOver T op s) = snapshot s ↔ KeepsPlace T op s := by
  rw [committedOver, KeepsPlace]
  split_ifs with hD ho
  · rw [snapshot_moveLineEnd_iff, if_pos rfl, forall_prop_of_true hD]
    have hno : op ≠ .vimKey "o" := by rw [hD]; decide
    rw [forall_prop_of_false hno, and_true]
    refine and_congr_right fun _ ↦ ?_
    rcases s.anchor with - | anchor
    · exact iff_of_false (Option.some_ne_none _) (not_not.mpr rfl)
    · exact iff_of_true rfl (Option.some_ne_none _)
  · rw [snapshot_moveLineEnd_iff, if_neg Bool.false_ne_true, forall_prop_of_true ho,
      forall_prop_of_false hD, true_and]
    exact and_congr_right fun _ ↦ eq_comm
  · exact iff_of_true rfl ⟨fun h ↦ absurd h hD, fun h ↦ absurd h ho⟩

/-! ## The editor -/

/-- **What a run keeps**, and what undo and redo do wherever it ends. The configuration allows one
step back at least. -/
theorem editor_spec (T : EditorTests) (config : PartialConfig) (ops : List Op)
    (hmax : 1 ≤ (createEditor config).config.maxUndo) :
    IsBuffer (reached T config ops).lines ∧
      IsPlace T (reached T config ops).lines (reached T config ops).cursor ∧
      (∀ anchor, (reached T config ops).anchor = some anchor →
        IsPlace T (reached T config ops).lines anchor) ∧
      (reached T config ops).undo.length ≤ (createEditor config).config.maxUndo ∧
      (reached T config ops).redo.length ≤ (createEditor config).config.maxUndo ∧
      (∀ op, IsEdit T op (reached T config ops) →
        (snapshot (undo (step T op (reached T config ops))) = snapshot (reached T config ops) ↔
          KeepsPlace T op (reached T config ops))) ∧
      ((reached T config ops).undo ≠ [] →
        timeline (redo (undo (reached T config ops))) = timeline (reached T config ops)) := by
  have hinv : Inv T (createEditor config).config (reached T config ops) :=
    (Inv.createEditor config).run ops
  have hfits := hinv.fits
  rw [Timeline.Fits] at hfits
  refine ⟨hinv.isBuffer, hinv.cursor, fun _ ↦ hinv.anchor, ?_, ?_, fun op hedit ↦ ?_,
    fun hundo ↦ ?_⟩
  · exact Nat.le_trans (Nat.le_add_right _ _) hfits
  · exact Nat.le_trans (Nat.le_add_left _ _) hfits
  · rw [snapshot_undo_step hedit (hinv.config_eq.symm ▸ hmax), snapshot_committedOver_iff]
  · rw [timeline_redo, timeline_undo, Inv.config_undo, hinv.config_eq]
    exact Timeline.redo_undo hinv.fits hundo

/-- Tables that say nothing: every character is a cluster. -/
def plainTests : EditorTests where
  combiningMark _ := false
  format _ := false
  letter _ := false
  number _ := false

theorem editor_spec_plain : IsBuffer (reached plainTests ⟨none, none, none, none⟩ []).lines :=
  (editor_spec plainTests ⟨none, none, none, none⟩ [] (by decide)).1

def vimConfig : PartialConfig := ⟨none, none, none, some true⟩

/-- Two letters, the cursor before them. -/
def beforeLetters : EditorState :=
  reached plainTests vimConfig [.insertText ['a', 'b'], .vimKey "0"]

/-- Undo after `D` leaves the cursor behind the letters, and them selected. -/
theorem undo_not_restored : IsEdit plainTests (.vimKey "D") beforeLetters ∧
    snapshot beforeLetters = ⟨[['a', 'b']], ⟨0, 0⟩, none⟩ ∧
    snapshot (undo (step plainTests (.vimKey "D") beforeLetters)) =
      ⟨[['a', 'b']], ⟨0, 2⟩, some ⟨0, 0⟩⟩ := by
  refine ⟨⟨⟨?_, ?_⟩, .inr (.inl rfl)⟩, ?_, ?_⟩
  · decide +kernel
  · decide +kernel
  · decide +kernel
  · decide +kernel

end QwenHarness.Tui.Editor
