import QwenHarness.Codec.Garbled
import QwenHarness.Mcp.SseReader

/-!
# Cutting an event stream

A chunk that ends inside a line end of two characters divides the record it is in, and each piece of
it is read as a record. A chunk that ends inside a character changes that character.

So the events are those of the stream if and only if each record with data has a piece that has all
of it: its data lines, its name and its id, as they are. Of the record that has not ended yet no
piece may have data (`openSse_eq_iff`).
-/

namespace QwenHarness.Mcp

open LineEnds

open Provider (field isComment)

/-- The pieces of a record that have ended. -/
def endedPieces (record : List (Option Text)) : List (List Text) :=
  (Lines.cut none record).1.map List.reduceOption

/-- The piece of a record that has begun last. -/
def lastPiece (record : List (Option Text)) : List Text := (Lines.cut none record).2.reduceOption

/-- The pieces that the line ends cut in two leave of a record. -/
def piecesOf (record : List (Option Text)) : List (List Text) :=
  endedPieces record ++ [lastPiece record]

/-- The records of a text, each of its lines. -/
def recordsOf (t : Text) : List (List Text) := (Lines.cut [] (cut t).1).1

/-- The records of a text that comes in parts, and the one that has not ended. Between their lines
stand the line ends cut in two. -/
def cutRecords (parts : List Text) : List (List (Option Text)) × List (Option Text) :=
  Lines.cut (some []) (byPart [] parts)

/-- **The cuts do no harm**: a record with data has a piece that says all of it, and what has not
ended has no data before a cut. -/
structure CutsHarmless (t : Text) (parts : List Text) : Prop where
  records : List.Forall₂ (fun record cutRecord ↦ (fieldsOf record).dataLines ≠ [] →
    ∃ piece ∈ piecesOf cutRecord, fieldsOf piece = fieldsOf record)
      (recordsOf t) (cutRecords parts).1
  unfinished : ∀ piece ∈ endedPieces (cutRecords parts).2, (fieldsOf piece).dataLines = []

/-! ## Pieces -/

theorem endedPieces_none (record : List (Option Text)) :
    endedPieces (none :: record) = [] :: endedPieces record := by
  rw [endedPieces, Lines.cut_sep]
  rfl

theorem lastPiece_none (record : List (Option Text)) :
    lastPiece (none :: record) = lastPiece record := by
  rw [lastPiece, Lines.cut_sep]
  rfl

theorem some_ne_none (line : Text) : some line ≠ none := Option.some_ne_none line

theorem endedPieces_some_of_nil (line : Text) {record : List (Option Text)}
    (h : endedPieces record = []) : endedPieces (some line :: record) = [] ∧
      lastPiece (some line :: record) = line :: lastPiece record := by
  have hcut := Lines.cut_cons_of_nil (some_ne_none line) (List.map_eq_nil_iff.mp h)
  rw [endedPieces, lastPiece, hcut]
  exact ⟨rfl, List.reduceOption_cons_of_some _ _⟩

theorem endedPieces_some_of_cons (line : Text) {record : List (Option Text)} {piece : List Text}
    {pieces : List (List Text)} (h : endedPieces record = piece :: pieces) :
    endedPieces (some line :: record) = (line :: piece) :: pieces ∧
      lastPiece (some line :: record) = lastPiece record := by
  obtain ⟨block, blocks, hblocks, rfl, rfl⟩ := List.map_eq_cons_iff.mp h
  have hcut := Lines.cut_cons_of_cons (some_ne_none line) hblocks
  rw [endedPieces, lastPiece, hcut, List.map_cons, List.reduceOption_cons_of_some]
  exact ⟨rfl, rfl⟩

theorem piecesOf_none (record : List (Option Text)) :
    piecesOf (none :: record) = [] :: piecesOf record := by
  rw [piecesOf, endedPieces_none, lastPiece_none]
  rfl

/-- A line is put before the first piece. -/
theorem exists_piecesOf_some (line : Text) (record : List (Option Text)) :
    ∃ piece pieces, piecesOf record = piece :: pieces ∧
      piecesOf (some line :: record) = (line :: piece) :: pieces := by
  rw [piecesOf, piecesOf]
  rcases hended : endedPieces record with - | ⟨piece, pieces⟩
  · obtain ⟨hnil, hlast⟩ := endedPieces_some_of_nil line hended
    exact ⟨_, [], rfl, by rw [hnil, hlast]; rfl⟩
  · obtain ⟨hcons, hlast⟩ := endedPieces_some_of_cons line hended
    exact ⟨piece, _, rfl, by rw [hcons, hlast]; rfl⟩

/-- **The records that a reader sees** are the pieces. -/
theorem cut_seenLines (lines : List (Option Text)) : Lines.cut [] (seenLines lines) =
    ((Lines.cut (some []) lines).1.flatMap piecesOf ++ endedPieces (Lines.cut (some []) lines).2,
      lastPiece (Lines.cut (some []) lines).2) := by
  induction lines with
  | nil => rfl
  | cons line lines ih =>
    rcases line with - | line
    · have hne : (none : Option Text) ≠ some [] := (Option.some_ne_none []).symm
      change Lines.cut [] ([] :: seenLines lines) = _
      rw [Lines.cut_sep, ih]
      rcases hcut : (Lines.cut (some []) lines).1 with - | ⟨block, blocks⟩
      · rw [Lines.cut_cons_of_nil hne hcut, endedPieces_none, lastPiece_none]
        rfl
      · rw [Lines.cut_cons_of_cons hne hcut, List.flatMap_cons, List.flatMap_cons, piecesOf_none]
        rfl
    · change Lines.cut [] (line :: seenLines lines) = _
      by_cases hline : line = []
      · subst hline
        rw [Lines.cut_sep, Lines.cut_sep, ih]
        rfl
      · have hne : some line ≠ some [] := fun h ↦ hline (Option.some.inj h)
        rcases hcut : (Lines.cut (some []) lines).1 with - | ⟨block, blocks⟩
        · rw [hcut, List.flatMap_nil, List.nil_append] at ih
          rw [Lines.cut_cons_of_nil hne hcut, List.flatMap_nil, List.nil_append]
          rcases hended : endedPieces (Lines.cut (some []) lines).2 with - | ⟨piece, pieces⟩
          · obtain ⟨hnil, hlast⟩ := endedPieces_some_of_nil line hended
            rw [Lines.cut_cons_of_nil hline ((congrArg Prod.fst ih).trans hended), hnil, hlast, ih]
          · obtain ⟨hcons, hlast⟩ := endedPieces_some_of_cons line hended
            rw [Lines.cut_cons_of_cons hline ((congrArg Prod.fst ih).trans hended), hcons, hlast,
              ih]
        · obtain ⟨piece, pieces, hpieces, hsome⟩ := exists_piecesOf_some line block
          rw [hcut, List.flatMap_cons, hpieces] at ih
          rw [Lines.cut_cons_of_cons hne hcut, List.flatMap_cons, hsome,
            Lines.cut_cons_of_cons hline (congrArg Prod.fst ih), ih]
          rfl

theorem flatten_piecesOf (record : List (Option Text)) :
    (piecesOf record).flatten = record.reduceOption := by
  induction record with
  | nil => rfl
  | cons line record ih =>
    rcases line with - | line
    · rw [piecesOf_none, List.flatten_cons, ih, List.reduceOption_cons_of_none]
      rfl
    · obtain ⟨piece, pieces, hpieces, hsome⟩ := exists_piecesOf_some line record
      rw [hpieces] at ih
      rw [hsome, List.reduceOption_cons_of_some, ← ih]
      rfl

/-! ## What a record says -/

/-- The event of the lines of a record. -/
def recordEvent (lines : List Text) : Option SseEvent := (fieldsOf lines).event

theorem filterMap_recordEvent_cons (record : List Text) (records : List (List Text)) :
    (record :: records).filterMap recordEvent =
      (recordEvent record).toList ++ records.filterMap recordEvent := by
  rw [List.filterMap_cons]
  rcases recordEvent record with - | e <;> rfl

theorem eventsOf_eq (f : RecordFields) (lines : List Text) : eventsOf f lines =
    match (Lines.cut [] lines).1 with
    | [] => []
    | record :: records =>
      (record.foldl RecordFields.read f).event.toList ++ records.filterMap recordEvent := by
  induction lines generalizing f with
  | nil => rfl
  | cons line lines ih =>
    by_cases hline : line = []
    · subst hline
      rw [eventsOf_nil_cons, Lines.cut_sep, ih]
      rcases (Lines.cut [] lines).1 with - | ⟨record, records⟩
      · rfl
      · exact congrArg (f.event.toList ++ ·) (filterMap_recordEvent_cons record records).symm
    · rw [eventsOf_cons f hline, ih]
      rcases hcut : (Lines.cut [] lines).1 with - | ⟨record, records⟩
      · rw [Lines.cut_cons_of_nil hline hcut]
      · rw [Lines.cut_cons_of_cons hline hcut]
        rfl

theorem eventsOf_start (lines : List Text) :
    eventsOf .start lines = (Lines.cut [] lines).1.filterMap recordEvent := by
  rw [eventsOf_eq]
  rcases (Lines.cut [] lines).1 with - | ⟨record, records⟩
  · rfl
  · exact (filterMap_recordEvent_cons record records).symm

/-- The line brings data. -/
def isData (line : Text) : Bool := !isComment line && (field line).1 == "data".toList

theorem dataLines_read (f : RecordFields) (line : Text) :
    (f.read line).dataLines = f.dataLines ++ if isData line then [(field line).2] else [] := by
  rw [RecordFields.read, isData]
  cases hcomment : isComment line with
  | true => exact (List.append_nil _).symm
  | false =>
    rw [if_neg Bool.false_ne_true]
    by_cases hevent : (field line).1 = "event".toList
    · rw [if_pos hevent, hevent, if_neg (by simp)]
      exact (List.append_nil _).symm
    · rw [if_neg hevent]
      by_cases hdata : (field line).1 = "data".toList
      · rw [if_pos hdata, hdata]
        rfl
      · have hfalse : ¬ (!false && (field line).1 == "data".toList) = true := by simpa using hdata
        rw [if_neg hdata, if_neg hfalse, List.append_nil]
        split <;> rfl

theorem dataLines_foldl (f : RecordFields) (lines : List Text) :
    (lines.foldl RecordFields.read f).dataLines =
      f.dataLines ++ (lines.filter isData).map fun line ↦ (field line).2 := by
  induction lines generalizing f with
  | nil => exact (List.append_nil _).symm
  | cons line lines ih =>
    rw [List.foldl_cons, ih, dataLines_read, List.filter_cons, List.append_assoc]
    split <;> rfl

theorem dataLines_fieldsOf (lines : List Text) :
    (fieldsOf lines).dataLines = (lines.filter isData).map fun line ↦ (field line).2 :=
  dataLines_foldl .start lines

theorem length_dataLines (lines : List Text) :
    (fieldsOf lines).dataLines.length = lines.countP isData := by
  rw [dataLines_fieldsOf, List.length_map, List.countP_eq_length_filter]

theorem dataLines_eq_nil_iff {lines : List Text} :
    (fieldsOf lines).dataLines = [] ↔ lines.countP isData = 0 := by
  rw [← length_dataLines, List.length_eq_zero_iff]

/-- What is cut in a line does not change whether it brings data. -/
theorem isData_of_garbled {line line' : Text} (h : Utf8.Garbled line line') :
    isData line = isData line' := by
  have hcomment : isComment line = isComment line' := by
    rw [Bool.eq_iff_iff, isComment, isComment, decide_eq_true_iff, decide_eq_true_iff]
    exact h.head?_iff (by decide)
  have hname : (field line).1 = "data".toList ↔ (field line').1 = "data".toList := by
    have hascii : ("data".toList.all fun a ↦ decide (a.toNat < 0x80)) = true := rfl
    refine (h.takeWhile fun c hc ↦ ?_).eq_iff fun a ha ↦
      of_decide_eq_true (List.all_eq_true.mp hascii a ha)
    refine decide_eq_true ?_
    rintro rfl
    exact absurd hc (by decide)
  rw [isData, isData, hcomment, Bool.eq_iff_iff, Bool.and_eq_true, Bool.and_eq_true, beq_iff_eq,
    beq_iff_eq, hname]

theorem mem_of_mem_field {line : Text} {c : Char} (h : c ∈ (field line).2) : c ∈ line := by
  have hraw : ∀ c ∈ (line.dropWhile (· ≠ ':')).tail, c ∈ line := fun c hc ↦
    (List.dropWhile_sublist _).subset (List.mem_of_mem_tail hc)
  rw [field] at h
  dsimp only at h
  split at h
  · exact hraw c (List.mem_of_mem_tail h)
  · exact hraw c h

/-- **An event tells what its record has said**, if no line end is in a line. -/
theorem fieldsOf_eq_of_event {lines lines' : List Text} {e : SseEvent}
    (h : recordEvent lines = some e) (h' : recordEvent lines' = some e)
    (hlf : ∀ line ∈ lines, '\n' ∉ line) (hlf' : ∀ line ∈ lines', '\n' ∉ line) :
    fieldsOf lines = fieldsOf lines' := by
  have hfree (lines : List Text) (hlf : ∀ line ∈ lines, '\n' ∉ line) :
      ∀ data ∈ (fieldsOf lines).dataLines, '\n' ∉ data := by
    intro data hdata hmem
    rw [dataLines_fieldsOf, List.mem_map] at hdata
    obtain ⟨line, hline, rfl⟩ := hdata
    exact hlf line (List.mem_filter.mp hline).1 (mem_of_mem_field hmem)
  have hfields := hfree lines hlf
  have hfields' := hfree lines' hlf'
  rw [recordEvent] at h h'
  generalize fieldsOf lines = f at h hfields
  generalize fieldsOf lines' = f' at h' hfields'
  obtain ⟨name, id, data⟩ := f
  obtain ⟨name', id', data'⟩ := f'
  rw [RecordFields.event] at h h'
  split at h
  · cases h
  · next hdata =>
    split at h'
    · cases h'
    · next hdata' =>
      obtain ⟨rfl, hjoin, rfl⟩ : name = name' ∧
          ['\n'].intercalate data = ['\n'].intercalate data' ∧ id = id' := by
        simpa using h.trans h'.symm
      have hsplit := congrArg (List.splitOn '\n') hjoin
      rw [List.splitOn_intercalate '\n' hfields hdata,
        List.splitOn_intercalate '\n' hfields' hdata'] at hsplit
      exact congrArg (RecordFields.mk name id) hsplit

/-! ## A record and its pieces -/

/-- The lines of a record and of what the cuts leave of it. -/
def LinesAlike (record lines : List Text) : Prop :=
  List.Forall₂ (fun line line' ↦ Utf8.Garbled line line' ∧ '\n' ∉ line ∧ '\n' ∉ line') record lines

theorem countP_of_linesAlike {record lines : List Text} (h : LinesAlike record lines) :
    record.countP isData = lines.countP isData := by
  induction h with
  | nil => rfl
  | cons hline _ ih => rw [List.countP_cons, List.countP_cons, ih, isData_of_garbled hline.1]

theorem LinesAlike.not_mem {record lines : List Text} (h : LinesAlike record lines) :
    (∀ line ∈ record, '\n' ∉ line) ∧ ∀ line ∈ lines, '\n' ∉ line := by
  induction h with
  | nil => exact ⟨by simp, by simp⟩
  | cons hline _ ih =>
    exact ⟨List.forall_mem_cons.mpr ⟨hline.2.1, ih.1⟩, List.forall_mem_cons.mpr ⟨hline.2.2, ih.2⟩⟩

/-- **The records stay**, each in its pieces. -/
theorem linesAlike_cut {lines : List Text} {lines' : List (Option Text)}
    (h : LinesAlike lines lines'.reduceOption) :
    List.Forall₂ (fun record cutRecord ↦ LinesAlike record cutRecord.reduceOption)
        (Lines.cut [] lines).1 (Lines.cut (some []) lines').1 ∧
      LinesAlike (Lines.cut [] lines).2 (Lines.cut (some []) lines').2.reduceOption := by
  induction lines' generalizing lines with
  | nil =>
    obtain rfl := List.forall₂_nil_right_iff.mp h
    exact ⟨.nil, .nil⟩
  | cons line' lines' ih =>
    rcases line' with - | line'
    · have hne : (none : Option Text) ≠ some [] := (Option.some_ne_none []).symm
      rw [List.reduceOption_cons_of_none] at h
      obtain ⟨hrecords, hrest⟩ := ih h
      rcases hcut : (Lines.cut (some []) lines').1 with - | ⟨record, records⟩
      · rw [Lines.cut_cons_of_nil hne hcut]
        rw [hcut] at hrecords
        exact ⟨hrecords, hrest⟩
      · rw [Lines.cut_cons_of_cons hne hcut]
        rw [hcut] at hrecords
        obtain ⟨first, rest, hfirst, hrest', heq⟩ := List.forall₂_cons_right_iff.mp hrecords
        rw [heq]
        exact ⟨.cons hfirst hrest', hrest⟩
    · rw [List.reduceOption_cons_of_some] at h
      obtain ⟨line, rest, hline, hlines, rfl⟩ := List.forall₂_cons_right_iff.mp h
      obtain ⟨hrecords, hrest⟩ := ih hlines
      by_cases hnil : line = []
      · have hnil' := hline.1.eq_nil_iff.mp hnil
        subst hnil hnil'
        rw [Lines.cut_sep, Lines.cut_sep]
        exact ⟨.cons .nil hrecords, hrest⟩
      · have hne : some line' ≠ some [] := fun heq ↦
          hnil (hline.1.eq_nil_iff.mpr (Option.some.inj heq))
        rcases hcut : (Lines.cut (some []) lines').1 with - | ⟨record, records⟩
        · rw [hcut] at hrecords
          rw [Lines.cut_cons_of_nil hne hcut,
            Lines.cut_cons_of_nil hnil (List.forall₂_nil_right_iff.mp hrecords)]
          exact ⟨.nil, .cons hline hrest⟩
        · rw [hcut] at hrecords
          obtain ⟨first, others, hfirst, hothers, heq⟩ := List.forall₂_cons_right_iff.mp hrecords
          rw [Lines.cut_cons_of_cons hne hcut, Lines.cut_cons_of_cons hnil heq]
          exact ⟨.cons (.cons hline hfirst) hothers, hrest⟩

theorem countP_flatten_eq_zero_iff {pieces : List (List Text)} :
    pieces.flatten.countP isData = 0 ↔ ∀ piece ∈ pieces, piece.countP isData = 0 := by
  simp only [List.countP_eq_zero, List.mem_flatten, forall_exists_index, and_imp]
  exact ⟨fun h piece hpiece line hline ↦ h line piece hpiece hline,
    fun h line piece hpiece hline ↦ h piece hpiece line hline⟩

section Record

variable {record : List Text} {cutRecord : List (Option Text)}
  (h : LinesAlike record cutRecord.reduceOption)

include h

theorem countP_piecesOf :
    record.countP isData = (piecesOf cutRecord).flatten.countP isData := by
  rw [countP_of_linesAlike h, ← flatten_piecesOf]

theorem countP_eq_zero_iff :
    record.countP isData = 0 ↔ ∀ piece ∈ piecesOf cutRecord, piece.countP isData = 0 := by
  rw [countP_piecesOf h, countP_flatten_eq_zero_iff]

theorem not_mem_of_mem_piecesOf {piece : List Text} (hpiece : piece ∈ piecesOf cutRecord) :
    ∀ line ∈ piece, '\n' ∉ line := by
  intro line hline
  refine h.not_mem.2 line ?_
  rw [← flatten_piecesOf]
  exact List.mem_flatten_of_mem hpiece hline

end Record

theorem recordEvent_eq_none_iff {lines : List Text} :
    recordEvent lines = none ↔ lines.countP isData = 0 := by
  rw [← dataLines_eq_nil_iff, recordEvent, RecordFields.event]
  split
  · next hnil => exact iff_of_true rfl hnil
  · next hne => exact iff_of_false (Option.some_ne_none _) hne

theorem filterMap_recordEvent_eq_nil_iff {pieces : List (List Text)} :
    pieces.filterMap recordEvent = [] ↔ ∀ piece ∈ pieces, piece.countP isData = 0 := by
  rw [List.filterMap_eq_nil_iff]
  exact forall₂_congr fun _ _ ↦ recordEvent_eq_none_iff

/-- A record with data has a piece with data. -/
theorem length_le_of_linesAlike {record : List Text} {cutRecord : List (Option Text)}
    (h : LinesAlike record cutRecord.reduceOption) :
    (recordEvent record).toList.length ≤
      ((piecesOf cutRecord).filterMap recordEvent).length := by
  cases hevent : recordEvent record with
  | none => exact Nat.zero_le _
  | some e =>
    refine List.length_pos_of_ne_nil fun hnil ↦ ?_
    have hzero := (countP_eq_zero_iff h).mpr (filterMap_recordEvent_eq_nil_iff.mp hnil)
    rw [recordEvent_eq_none_iff.mpr hzero] at hevent
    cases hevent

/-- **The pieces of a record bring its event**, and no other, if and only if one of them has all
that it says. -/
theorem pieces_eq_iff {record : List Text} {cutRecord : List (Option Text)}
    (h : LinesAlike record cutRecord.reduceOption) :
    (piecesOf cutRecord).filterMap recordEvent = (recordEvent record).toList ↔
      ((fieldsOf record).dataLines ≠ [] →
        ∃ piece ∈ piecesOf cutRecord, fieldsOf piece = fieldsOf record) := by
  by_cases hdata : record.countP isData = 0
  · refine iff_of_true ?_ fun hne ↦ absurd (dataLines_eq_nil_iff.mpr hdata) hne
    rw [recordEvent_eq_none_iff.mpr hdata]
    exact filterMap_recordEvent_eq_nil_iff.mpr ((countP_eq_zero_iff h).mp hdata)
  · rw [imp_iff_right (mt dataLines_eq_nil_iff.mp hdata)]
    obtain ⟨e, he⟩ := Option.ne_none_iff_exists'.mp (mt recordEvent_eq_none_iff.mp hdata)
    rw [he]
    constructor
    · intro hall
      have hmem : e ∈ (piecesOf cutRecord).filterMap recordEvent := by
        rw [hall]
        exact List.mem_singleton_self e
      obtain ⟨piece, hpiece, hevent⟩ := List.mem_filterMap.mp hmem
      exact ⟨piece, hpiece, fieldsOf_eq_of_event hevent he (not_mem_of_mem_piecesOf h hpiece)
        h.not_mem.1⟩
    · rintro ⟨piece, hpiece, hfields⟩
      have hevent : recordEvent piece = some e := by rw [recordEvent, hfields, ← he, recordEvent]
      have hcount : piece.countP isData = record.countP isData := by
        rw [← length_dataLines, hfields, length_dataLines]
      -- all the data lines are in this piece, so there are none in the others
      obtain ⟨before, after, hpieces⟩ := List.append_of_mem hpiece
      have hsum := countP_piecesOf h
      rw [hpieces, List.flatten_append, List.flatten_cons, List.countP_append, List.countP_append,
        hcount] at hsum
      have hbefore : before.filterMap recordEvent = [] := by
        refine filterMap_recordEvent_eq_nil_iff.mpr (countP_flatten_eq_zero_iff.mp ?_)
        omega
      have hafter : after.filterMap recordEvent = [] := by
        refine filterMap_recordEvent_eq_nil_iff.mpr (countP_flatten_eq_zero_iff.mp ?_)
        omega
      rw [hpieces, List.filterMap_append, hbefore, List.filterMap_cons_some hevent, hafter]
      rfl

/-! ## A stream and its chunks -/

/-- Lists that are no shorter than others are these, one by one, if they are these together. -/
theorem flatMap_append_eq_iff {α β γ : Type} {f : α → List γ} {g : β → List γ} {as : List α}
    {bs : List β} (h : List.Forall₂ (fun a b ↦ (f a).length ≤ (g b).length) as bs)
    (rest : List γ) :
    bs.flatMap g ++ rest = as.flatMap f ↔ List.Forall₂ (fun a b ↦ g b = f a) as bs ∧ rest = [] := by
  have hlength {as : List α} {bs : List β}
      (h : List.Forall₂ (fun a b ↦ (f a).length ≤ (g b).length) as bs) :
      (as.flatMap f).length ≤ (bs.flatMap g).length := by
    induction h with
    | nil => exact le_rfl
    | cons hab _ ih =>
      rw [List.flatMap_cons, List.flatMap_cons, List.length_append, List.length_append]
      exact Nat.add_le_add hab ih
  induction h with
  | nil => simp
  | @cons a b as bs hab hrest ih =>
    rw [List.flatMap_cons, List.flatMap_cons, List.append_assoc, List.forall₂_cons, and_assoc]
    refine Iff.trans ?_ (and_congr_right fun _ ↦ ih)
    constructor
    · intro heq
      have hlengths := congrArg List.length heq
      rw [List.length_append, List.length_append, List.length_append] at hlengths
      have hle := hlength hrest
      exact List.append_inj heq (by omega)
    · rintro ⟨hb, hbs⟩
      rw [hb, hbs]

theorem forall₂_iff_of_forall₂ {α β : Type} {R P Q : α → β → Prop} {as : List α} {bs : List β}
    (h : List.Forall₂ R as bs) (hiff : ∀ a b, R a b → (P a b ↔ Q a b)) :
    List.Forall₂ P as bs ↔ List.Forall₂ Q as bs := by
  induction h with
  | nil => exact iff_of_true .nil .nil
  | cons hab _ ih => rw [List.forall₂_cons, List.forall₂_cons, hiff _ _ hab, ih]

theorem linesAlike_of_garbled {lines lines' : List Text}
    (h : List.Forall₂ Utf8.Garbled lines lines') (hlf : ∀ line ∈ lines, '\n' ∉ line)
    (hlf' : ∀ line ∈ lines', '\n' ∉ line) : LinesAlike lines lines' := by
  induction h with
  | nil => exact .nil
  | cons hline _ ih =>
    rw [List.forall_mem_cons] at hlf hlf'
    exact .cons ⟨hline, hlf.1, hlf'.1⟩ (ih hlf.2 hlf'.2)

theorem lf_not_mem_of_mem_cut {t line : Text} (h : line ∈ (cut t).1) : '\n' ∉ line :=
  fun hmem ↦ (not_isEnd_of_cut t).1 line h '\n' hmem rfl

/-- The lines of a stream, and those that are seen in its chunks. -/
theorem linesAlike_byPart {t : Text} {chunks : List (List UInt8)}
    (h : chunks.flatten = Utf8.encode t) :
    LinesAlike (cut t).1 (byPart [] (chunks.map Utf8.decode)).reduceOption := by
  have hlines := cut_parts [] (chunks.map Utf8.decode)
  rw [List.nil_append] at hlines
  change _ = (byPart [] (chunks.map Utf8.decode)).reduceOption at hlines
  rw [← hlines]
  exact linesAlike_of_garbled (Utf8.garbled_cut (Utf8.garbled_parts h)).1
    (fun _ ↦ lf_not_mem_of_mem_cut) fun _ ↦ lf_not_mem_of_mem_cut

/-- **The events do not depend on the cuts** if and only if the cuts do no harm. -/
theorem openSse_eq_iff (t : Text) (chunks : List (List UInt8))
    (h : chunks.flatten = Utf8.encode t) :
    openSse chunks = openSse [Utf8.encode t] ↔ CutsHarmless t (chunks.map Utf8.decode) := by
  have halike := (linesAlike_cut (linesAlike_byPart h)).1
  have hlength := halike.imp fun _ _ ↦ length_le_of_linesAlike
  have hchunks : openSse chunks =
      (cutRecords (chunks.map Utf8.decode)).1.flatMap
          (fun cutRecord ↦ (piecesOf cutRecord).filterMap recordEvent) ++
        (endedPieces (cutRecords (chunks.map Utf8.decode)).2).filterMap recordEvent := by
    rw [openSse_eq, eventsOf_start, cut_seenLines, List.filterMap_append, List.filterMap_flatMap]
    rfl
  have hwhole : openSse [Utf8.encode t] =
      (recordsOf t).flatMap fun record ↦ (recordEvent record).toList := by
    rw [openSse_whole, eventsOf_start, List.filterMap_eq_flatMap_toList]
    rfl
  rw [hchunks, hwhole]
  refine (flatMap_append_eq_iff hlength _).trans ⟨?_, ?_⟩
  · rintro ⟨hrecords, hrest⟩
    refine ⟨(forall₂_iff_of_forall₂ halike fun _ _ ↦ pieces_eq_iff).mp hrecords, fun piece hp ↦ ?_⟩
    exact dataLines_eq_nil_iff.mpr (filterMap_recordEvent_eq_nil_iff.mp hrest piece hp)
  · rintro ⟨hrecords, hunfinished⟩
    refine ⟨(forall₂_iff_of_forall₂ halike fun _ _ ↦ pieces_eq_iff).mpr hrecords, ?_⟩
    exact filterMap_recordEvent_eq_nil_iff.mpr fun piece hp ↦
      dataLines_eq_nil_iff.mp (hunfinished piece hp)

/-- A cut inside a character of a comment, and one inside the empty line at the end. -/
theorem cutsHarmless_comment : CutsHarmless ": é\ndata: b\r\n\r\n".toList
    ([[0x3a, 0x20, 0xc3], [0xa9, 0x0a, 0x64, 0x61, 0x74, 0x61, 0x3a, 0x20, 0x62, 0x0d, 0x0a, 0x0d],
      [0x0a]].map Utf8.decode) :=
  (openSse_eq_iff _ _ (by decide)).mp (by decide)

/-- **A line end cut in two** takes the name away from an event. -/
theorem not_cutsAlike_name : ¬∀ (t : Text) (chunks chunks' : List (List UInt8)),
    chunks.flatten = Utf8.encode t → chunks'.flatten = Utf8.encode t →
      openSse chunks = openSse chunks' := by
  intro h
  have hsame := h "event: a\r\ndata: b\n\n".toList
    [Utf8.encode "event: a\r".toList, Utf8.encode "\ndata: b\n\n".toList]
    [Utf8.encode "event: a\r\ndata: b\n\n".toList] (by decide) (by decide)
  exact absurd hsame (by decide)

end QwenHarness.Mcp
