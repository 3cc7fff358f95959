import QwenHarness.Provider.Sse

/-!
# Reading the event stream of a server

The reader decodes each chunk by itself, and makes every line end of it a line feed. What it has is
cut at empty lines into records, and a record with data is an event.

So it sees an empty line where a chunk ends inside a line end of two characters, and replacement
characters where it ends inside a character. Its events are those of the lines that `LineEnds`
finds in the chunks (`openSse_eq`).
-/

namespace QwenHarness.Mcp

open LineEnds

open Provider (field isComment)

structure SseEvent where
  event : Text
  data : Text
  id : Option Text
deriving DecidableEq, Repr

/-! ## Records -/

/-- `chunk.replace(/\r\n/g, '\n')`. -/
def crlfToLf : Text → Text
  | [] => []
  | '\r' :: '\n' :: cs => '\n' :: crlfToLf cs
  | c :: cs => c :: crlfToLf cs

def normalize (chunk : Text) : Text := (crlfToLf chunk).map fun c ↦ if c = '\r' then '\n' else c

/-- What stands before each `\n\n`, and what is left after the last. -/
def records : Text → List Text × Text
  | [] => ([], [])
  | '\n' :: '\n' :: cs => ([] :: (records cs).1, (records cs).2)
  | c :: cs =>
    match (records cs).1 with
    | [] => ([], c :: (records cs).2)
    | record :: rest => ((c :: record) :: rest, (records cs).2)

/-- What the lines of a record have said. -/
structure RecordFields where
  eventName : Text
  id : Option Text
  dataLines : List Text
deriving DecidableEq, Repr

namespace RecordFields

def start : RecordFields := ⟨"message".toList, none, []⟩

def read (f : RecordFields) (rawLine : Text) : RecordFields :=
  if isComment rawLine then f
  else if (field rawLine).1 = "event".toList then { f with eventName := (field rawLine).2 }
  else if (field rawLine).1 = "data".toList then
    { f with dataLines := f.dataLines ++ [(field rawLine).2] }
  else if (field rawLine).1 = "id".toList then { f with id := some (field rawLine).2 }
  else f

def event (f : RecordFields) : Option SseEvent :=
  if f.dataLines = [] then none
  else some ⟨f.eventName, ['\n'].intercalate f.dataLines, f.id⟩

end RecordFields

/-- `record.split('\n')`. -/
def splitLines (record : Text) : List Text :=
  (Lines.cut '\n' record).1 ++ [(Lines.cut '\n' record).2]

def fieldsOf (lines : List Text) : RecordFields := lines.foldl RecordFields.read .start

def parseRecord (record : Text) : Option SseEvent := (fieldsOf (splitLines record)).event

/-! ## The reader -/

/-- The events of a chunk, and the buffer after it. -/
def push (buffer chunk : Text) : List SseEvent × Text :=
  let (records, rest) := records (buffer ++ normalize chunk)
  (records.filterMap parseRecord, rest)

def pushAll : Text → List Text → List SseEvent
  | _, [] => []
  | buffer, chunk :: chunks => (push buffer chunk).1 ++ pushAll (push buffer chunk).2 chunks

/-- The events that a stream delivers in chunks. -/
def openSse (chunks : List (List UInt8)) : List SseEvent := pushAll [] (chunks.map Utf8.decode)

/-! ## Records of a text in parts -/

theorem records_lf_lf (cs : Text) :
    records ('\n' :: '\n' :: cs) = ([] :: (records cs).1, (records cs).2) := rfl

theorem records_cons {c : Char} {cs : Text} (h : c = '\n' → cs.head? ≠ some '\n') :
    records (c :: cs) =
      match (records cs).1 with
      | [] => ([], c :: (records cs).2)
      | record :: rest => ((c :: record) :: rest, (records cs).2) := by
  rw [records]
  rintro rest rfl rfl
  exact h rfl rfl

theorem records_of_nil {cs : Text} (h : (records cs).1 = []) : (records cs).2 = cs := by
  induction cs using records.induct with
  | case1 => rfl
  | case2 cs ih => exact absurd h (List.cons_ne_nil _ _)
  | case3 c cs hc hnil ih =>
    rw [records_cons fun hlf hhead ↦ hc _ hlf (List.eq_cons_of_mem_head? hhead), hnil]
    exact congrArg (c :: ·) (ih hnil)
  | case4 c cs hc record rest hcons ih =>
    rw [records_cons fun hlf hhead ↦ hc _ hlf (List.eq_cons_of_mem_head? hhead), hcons] at h
    cases h

theorem head?_append_of_records {cs : Text} (ys : Text) {record : Text} {rest : List Text}
    (h : (records cs).1 = record :: rest) : (cs ++ ys).head? = cs.head? := by
  rcases cs with - | ⟨c, cs⟩
  · cases h
  · rfl

/-- **A text in two parts**: what the first part leaves is put before the second. -/
theorem records_append (xs ys : Text) : records (xs ++ ys) =
    ((records xs).1 ++ (records ((records xs).2 ++ ys)).1,
      (records ((records xs).2 ++ ys)).2) := by
  induction xs using records.induct with
  | case1 => rfl
  | case2 cs ih =>
    rw [List.cons_append, List.cons_append, records_lf_lf, records_lf_lf, ih]
    rfl
  | case3 c cs hc hnil ih =>
    have hnone : (records (c :: cs)).1 = [] := by
      rw [records_cons fun hlf hhead ↦ hc _ hlf (List.eq_cons_of_mem_head? hhead), hnil]
    rw [hnone, records_of_nil hnone]
    rfl
  | case4 c cs hc record rest hcons ih =>
    have hhead : c = '\n' → cs.head? ≠ some '\n' := fun h hlf ↦
      hc _ h (List.eq_cons_of_mem_head? hlf)
    have hhead' : c = '\n' → (cs ++ ys).head? ≠ some '\n' := by
      rw [head?_append_of_records ys hcons]
      exact hhead
    rw [hcons] at ih
    rw [List.cons_append, records_cons hhead, records_cons hhead', hcons, ih]
    rfl

theorem pushAll_eq {buffer : Text} (h : (records buffer).1 = []) (chunks : List Text) :
    pushAll buffer chunks =
      (records (buffer ++ (chunks.map normalize).flatten)).1.filterMap parseRecord := by
  induction chunks generalizing buffer with
  | nil =>
    rw [List.map_nil, List.flatten_nil, List.append_nil, h]
    rfl
  | cons chunk chunks ih =>
    have hrest : (records (records (buffer ++ normalize chunk)).2).1 = [] := by
      have happend := congrArg Prod.fst (records_append (buffer ++ normalize chunk) [])
      rw [List.append_nil, List.append_nil] at happend
      exact List.self_eq_append_right.mp happend
    rw [pushAll, push]
    dsimp only
    rw [ih hrest, List.map_cons, List.flatten_cons, ← List.append_assoc,
      records_append (buffer ++ normalize chunk), List.filterMap_append]

/-! ## Records and their lines -/

/-- The events of lines, from what the record in progress has said. -/
def eventsOf : RecordFields → List Text → List SseEvent
  | _, [] => []
  | f, line :: lines =>
    if line = [] then f.event.toList ++ eventsOf .start lines else eventsOf (f.read line) lines

theorem eventsOf_nil_cons (f : RecordFields) (lines : List Text) :
    eventsOf f ([] :: lines) = f.event.toList ++ eventsOf .start lines := by
  rw [eventsOf, if_pos rfl]

theorem eventsOf_cons (f : RecordFields) {line : Text} (hline : line ≠ []) (lines : List Text) :
    eventsOf f (line :: lines) = eventsOf (f.read line) lines := by
  rw [eventsOf, if_neg hline]

/-- The events of records, of which the first goes on with what has been said. -/
def eventsFrom (f : RecordFields) : List Text → List SseEvent
  | [] => []
  | record :: rest =>
    ((splitLines record).foldl RecordFields.read f).event.toList ++ rest.filterMap parseRecord

theorem eventsFrom_start (rs : List Text) : eventsFrom .start rs = rs.filterMap parseRecord := by
  rcases rs with - | ⟨record, rest⟩
  · rfl
  · rw [eventsFrom, List.filterMap_cons, parseRecord, fieldsOf]
    rcases ((splitLines record).foldl RecordFields.read .start).event with - | e <;> rfl

theorem lines_of_not_mem {line : Text} (h : '\n' ∉ line) : Lines.cut '\n' line = ([], line) := by
  induction line with
  | nil => rfl
  | cons c line ih =>
    rw [List.mem_cons, not_or] at h
    have hcut := ih h.2
    rw [Lines.cut_cons_of_nil (Ne.symm h.1) (congrArg Prod.fst hcut), hcut]

theorem lines_append_lf {line : Text} (h : '\n' ∉ line) (t : Text) :
    Lines.cut '\n' (line ++ '\n' :: t) = (line :: (Lines.cut '\n' t).1, (Lines.cut '\n' t).2) := by
  induction line with
  | nil => exact Lines.cut_sep '\n' t
  | cons c line ih =>
    rw [List.mem_cons, not_or] at h
    rw [List.cons_append, Lines.cut_cons_of_cons (Ne.symm h.1) (congrArg Prod.fst (ih h.2)),
      ih h.2]

theorem splitLines_append_lf {line : Text} (h : '\n' ∉ line) (t : Text) :
    splitLines (line ++ '\n' :: t) = line :: splitLines t := by
  rw [splitLines, lines_append_lf h, splitLines]
  rfl

theorem records_of_not_mem {line : Text} (h : '\n' ∉ line) : (records line).1 = [] := by
  induction line with
  | nil => rfl
  | cons c line ih =>
    rw [List.mem_cons, not_or] at h
    rw [records_cons fun hlf ↦ absurd hlf (Ne.symm h.1), ih h.2]

theorem records_append_lf_lf {line : Text} (h : '\n' ∉ line) (t : Text) :
    (records (line ++ '\n' :: '\n' :: t)).1 = line :: (records t).1 := by
  induction line with
  | nil => rfl
  | cons c line ih =>
    rw [List.mem_cons, not_or] at h
    rw [List.cons_append, records_cons fun hlf ↦ absurd hlf (Ne.symm h.1), ih h.2]

/-- A line that does not end a record is the first of the next one. -/
theorem eventsFrom_append_lf (f : RecordFields) {line t : Text} (h : '\n' ∉ line)
    (ht : t.head? ≠ some '\n') : eventsFrom f (records (line ++ '\n' :: t)).1 =
      eventsFrom (f.read line) (records t).1 := by
  have hcut : (records (line ++ '\n' :: t)).1 =
      match (records t).1 with
      | [] => []
      | record :: rest => (line ++ '\n' :: record) :: rest := by
    clear f
    induction line with
    | nil =>
      rw [List.nil_append, records_cons fun _ ↦ ht]
      rcases (records t).1 with - | ⟨record, rest⟩ <;> rfl
    | cons c line ih =>
      rw [List.mem_cons, not_or] at h
      rw [List.cons_append, records_cons fun hlf ↦ absurd hlf (Ne.symm h.1), ih h.2]
      rcases (records t).1 with - | ⟨record, rest⟩ <;> rfl
  rw [hcut]
  rcases (records t).1 with - | ⟨record, rest⟩
  · rfl
  · rw [eventsFrom, eventsFrom, splitLines_append_lf h, List.foldl_cons]

theorem read_nil : RecordFields.start.read [] = .start := by decide

theorem event_start : RecordFields.start.event = none := rfl

/-- **The events of the records** are those of the lines. -/
theorem eventsFrom_records {f : RecordFields} {t : Text} (hf : f = .start ∨ t.head? ≠ some '\n') :
    eventsFrom f (records t).1 = eventsOf f (Lines.cut '\n' t).1 := by
  induction hn : t.length using Nat.strong_induction_on generalizing f t with
  | _ n ih =>
    by_cases hlf : '\n' ∈ t
    · obtain ⟨line, rest, rfl, hline⟩ := List.eq_append_cons_of_mem hlf
      rw [lines_append_lf hline]
      have hlength : rest.length < n := by
        rw [← hn, List.length_append, List.length_cons]
        omega
      have hempty : line = [] → f = .start := by
        rintro rfl
        exact hf.resolve_right fun hne ↦ hne rfl
      by_cases hnext : rest.head? = some '\n'
      · obtain ⟨rest, rfl⟩ := List.head?_eq_some_iff.mp hnext
        rw [List.length_cons] at hlength
        have hrest := ih rest.length (Nat.lt_of_succ_lt hlength) (.inl rfl) rfl
        rw [eventsFrom_start] at hrest
        rw [records_append_lf_lf hline, eventsFrom, Lines.cut_sep, hrest, splitLines,
          lines_of_not_mem hline]
        by_cases hline' : line = []
        · rw [hempty hline', hline', eventsOf_nil_cons, eventsOf_nil_cons, event_start]
          exact congrArg (fun f ↦ f.event.toList ++ _) read_nil
        · rw [eventsOf_cons f hline', eventsOf_nil_cons]
          rfl
      · rw [eventsFrom_append_lf f hline hnext, ih rest.length hlength (.inr hnext) rfl]
        by_cases hline' : line = []
        · rw [hempty hline', hline', eventsOf_nil_cons, event_start, read_nil]
          rfl
        · rw [eventsOf_cons f hline']
    · rw [records_of_not_mem hlf, lines_of_not_mem hlf]
      rfl

/-! ## Lines and the chunks they come in -/

theorem normalize_crlf (cs : Text) : normalize ('\r' :: '\n' :: cs) = '\n' :: normalize cs := rfl

theorem normalize_cons {c : Char} {cs : Text} (h : c = '\r' → cs.head? ≠ some '\n') :
    normalize (c :: cs) = (if c = '\r' then '\n' else c) :: normalize cs := by
  rw [normalize, crlfToLf]
  · rfl
  · rintro rest rfl rfl
    exact h rfl rfl

theorem normalize_end {c : Char} {cs : Text} (hc : isEnd c) (h : c = '\r' → cs.head? ≠ some '\n') :
    normalize (c :: cs) = '\n' :: normalize cs := by
  rw [normalize_cons h]
  rw [isEnd, Bool.or_eq_true, beq_iff_eq, beq_iff_eq] at hc
  rcases hc with rfl | rfl <;> rfl

theorem normalize_of_not_end {c : Char} (hc : ¬ isEnd c) (cs : Text) :
    normalize (c :: cs) = c :: normalize cs := by
  rw [normalize_cons fun hcr ↦ absurd hcr (ne_of_not_isEnd hc), if_neg (ne_of_not_isEnd hc)]

theorem ne_lf_of_not_isEnd {c : Char} (hc : ¬ isEnd c) : c ≠ '\n' := by
  rintro rfl
  exact hc rfl

/-- The lines of a chunk are those that its line ends cut it into. -/
theorem lines_normalize (t : Text) : Lines.cut '\n' (normalize t) = cut t := by
  induction t using cut.induct with
  | case1 => rfl
  | case2 cs ih => rw [normalize_crlf, Lines.cut_sep, ih, cut_crlf]
  | case3 c cs hc hend ih =>
    have hcr : c = '\r' → cs.head? ≠ some '\n' := fun h hlf ↦
      hc _ h (List.eq_cons_of_mem_head? hlf)
    rw [normalize_end hend hcr, Lines.cut_sep, ih, cut_end hend hcr]
  | case4 c cs hc hend hnil ih =>
    rw [normalize_of_not_end hend,
      Lines.cut_cons_of_nil (ne_lf_of_not_isEnd hend) ((congrArg Prod.fst ih).trans hnil), ih,
      cut_cons_of_nil hend hnil]
  | case5 c cs hc hend line lines hcons ih =>
    rw [normalize_of_not_end hend,
      Lines.cut_cons_of_cons (ne_lf_of_not_isEnd hend) ((congrArg Prod.fst ih).trans hcons), ih,
      cut_cons_of_cons hend hcons]

theorem normalize_append {kept : Text} (h : ∀ c ∈ kept, ¬ isEnd c) (part : Text) :
    normalize (kept ++ part) = kept ++ normalize part := by
  induction kept with
  | nil => rfl
  | cons c kept ih =>
    rw [List.forall_mem_cons] at h
    rw [List.cons_append, normalize_of_not_end h.1, ih h.2]
    rfl

/-- No line end is in a line, or in what has begun since the last. -/
theorem not_isEnd_of_cut (t : Text) :
    (∀ line ∈ (cut t).1, ∀ c ∈ line, ¬ isEnd c) ∧ ∀ c ∈ (cut t).2, ¬ isEnd c := by
  induction t using cut.induct with
  | case1 => exact ⟨by simp [cut], by simp [cut]⟩
  | case2 cs ih =>
    rw [cut_crlf]
    exact ⟨List.forall_mem_cons.mpr ⟨by simp, ih.1⟩, ih.2⟩
  | case3 c cs hc hend ih =>
    rw [cut_end hend fun h hlf ↦ hc _ h (List.eq_cons_of_mem_head? hlf)]
    exact ⟨List.forall_mem_cons.mpr ⟨by simp, ih.1⟩, ih.2⟩
  | case4 c cs hc hend hnil ih =>
    rw [cut_cons_of_nil hend hnil]
    exact ⟨by simp, List.forall_mem_cons.mpr ⟨hend, ih.2⟩⟩
  | case5 c cs hc hend line lines hcons ih =>
    rw [hcons, List.forall_mem_cons] at ih
    rw [cut_cons_of_cons hend hcons]
    exact ⟨List.forall_mem_cons.mpr ⟨List.forall_mem_cons.mpr ⟨hend, ih.1.1⟩, ih.1.2⟩, ih.2⟩

theorem readParts_eq_lines {kept : Text} (h : ∀ c ∈ kept, ¬ isEnd c) (parts : List Text) :
    readParts kept parts = (Lines.cut '\n' (kept ++ (parts.map normalize).flatten)).1 := by
  induction parts generalizing kept with
  | nil =>
    have hlf : '\n' ∉ kept := fun hmem ↦ h _ hmem rfl
    rw [readParts, List.map_nil, List.flatten_nil, List.append_nil, lines_of_not_mem hlf]
  | cons part parts ih =>
    rw [readParts, ih (not_isEnd_of_cut _).2, List.map_cons, List.flatten_cons,
      ← List.append_assoc, ← normalize_append h, Lines.cut_append (normalize (kept ++ part)),
      lines_normalize]

/-- The lines a reader sees, with an empty one for each line end cut in two. -/
def seenLines (lines : List (Option Text)) : List Text := lines.map (·.getD [])

/-- **What a stream delivers** are the events of the lines that are seen in its chunks. -/
theorem openSse_eq (chunks : List (List UInt8)) :
    openSse chunks = eventsOf .start (seenLines (byPart [] (chunks.map Utf8.decode))) := by
  have hread : readParts [] (chunks.map Utf8.decode) =
      seenLines (byPart [] (chunks.map Utf8.decode)) := readParts_eq [] _
  have hnil : ∀ c ∈ ([] : Text), ¬ isEnd c := by simp
  rw [openSse, pushAll_eq rfl, ← eventsFrom_start, eventsFrom_records (.inl rfl), ← hread,
    readParts_eq_lines hnil]

/-- **What a stream delivers in one chunk** are the events of its lines. -/
theorem openSse_whole (t : Text) : openSse [Utf8.encode t] = eventsOf .start (cut t).1 := by
  rw [openSse_eq, List.map_singleton, Utf8.decode_encode, byPart,
    if_neg fun h ↦ absurd h.1 (by decide)]
  rw [byPart, List.append_nil]
  exact congrArg (eventsOf .start) (map_getD_map_some (cut t).1)

end QwenHarness.Mcp
