import QwenHarness.Codec.LineEnds
import QwenHarness.Codec.Lines
import QwenHarness.Codec.TextDecoder

/-!
# Reading server-sent events

The reader decodes the bytes of a body as they come, and cuts them into lines. A line names a field
of the frame in progress, and an empty one ends it. Only whole lines are consumed, and a frame is
only yielded at the line that ends it; so what a stream that was cut off leaves is never a frame.

A carriage return ends a line at once, also where a chunk ends with it. If the line feed that
belongs to it comes with the next chunk, it is taken for an empty line, and ends the frame in
progress. So what is read depends on the chunks, unless no frame is in progress there, or nothing
but its end is still to come (`readSseFrames_eq_iff`, `cutsAlike_iff`).
-/

namespace QwenHarness.Provider

open LineEnds TextDecoder

abbrev Text := List Char

structure SseFrame where
  /-- The `event:` field, or none for an unnamed frame. -/
  event : Option Text
  data : Text
deriving DecidableEq, Repr

/-! ## The frame in progress -/

structure Pending where
  event : Option Text
  data : List Text
deriving DecidableEq, Repr

namespace Pending

def empty : Pending := ⟨none, []⟩

def flush (p : Pending) : Option SseFrame :=
  if p.data = [] ∧ p.event = none then none else some ⟨p.event, ['\n'].intercalate p.data⟩

end Pending

/-- The name of a field and its value, which a single space may stand before. -/
def field (line : Text) : Text × Text :=
  let rawValue := (line.dropWhile (· ≠ ':')).tail
  (line.takeWhile (· ≠ ':'), if rawValue.head? = some ' ' then rawValue.tail else rawValue)

def isComment (line : Text) : Bool := line.head? = some ':'

/-- What a line that is not empty does to the frame in progress. -/
def Pending.read (p : Pending) (line : Text) : Pending :=
  if isComment line then p
  else if (field line).1 = "event".toList then { p with event := some (field line).2 }
  else if (field line).1 = "data".toList then { p with data := p.data ++ [(field line).2] }
  else p

def Pending.onLine (p : Pending) (line : Text) : Pending :=
  if line = [] then .empty else p.read line

/-- The frames of lines, from a frame in progress. -/
def frames : Pending → List Text → List SseFrame
  | _, [] => []
  | p, line :: lines => (if line = [] then p.flush.toList else []) ++ frames (p.onLine line) lines

/-! ## The reader -/

structure Reader where
  buffer : Text
  pending : Pending

/-- Consume the whole lines there are with the text of a chunk. -/
def Reader.onText (r : Reader) (text : Text) : Reader × List SseFrame :=
  let (lines, rest) := cut (r.buffer ++ text)
  (⟨rest, lines.foldl Pending.onLine r.pending⟩, frames r.pending lines)

def readTexts : Reader → List Text → List SseFrame
  | _, [] => []
  | r, text :: texts => (r.onText text).2 ++ readTexts (r.onText text).1 texts

def readSseFrames (chunks : List Bytes) : List SseFrame :=
  readTexts ⟨[], .empty⟩ (decodeAll .new chunks)

/-! ## The frames of a text -/

/-- The frame of a block of lines, if one of them names it or brings data. -/
def frameOf (block : List Text) : Option SseFrame := (block.foldl Pending.read .empty).flush

/-- The frames of a text: those of the blocks that an empty line of it ends. -/
def framesOf (t : Text) : List SseFrame := (Lines.cut [] (cut t).1).1.filterMap frameOf

@[simp] theorem flush_empty : Pending.empty.flush = none := rfl

theorem flush_eq_none_iff {p : Pending} : p.flush = none ↔ p = .empty := by
  rcases p with ⟨event, data⟩
  rw [Pending.flush, Pending.empty, Pending.mk.injEq]
  constructor
  · intro h
    by_contra hne
    rw [if_neg fun hnil ↦ hne ⟨hnil.2, hnil.1⟩] at h
    cases h
  · rintro ⟨rfl, rfl⟩
    rfl

theorem frames_nil_cons (p : Pending) (lines : List Text) :
    frames p ([] :: lines) = p.flush.toList ++ frames .empty lines := by
  rw [frames, if_pos rfl, Pending.onLine, if_pos rfl]

theorem frames_cons (p : Pending) {line : Text} (hline : line ≠ []) (lines : List Text) :
    frames p (line :: lines) = frames (p.read line) lines := by
  rw [frames, if_neg hline, Pending.onLine, if_neg hline, List.nil_append]

theorem frames_append (p : Pending) (lines lines' : List Text) :
    frames p (lines ++ lines') = frames p lines ++ frames (lines.foldl Pending.onLine p) lines' := by
  induction lines generalizing p with
  | nil => rfl
  | cons line lines ih => rw [List.cons_append, frames, ih, frames, List.foldl_cons,
      List.append_assoc]

theorem filterMap_frameOf_cons (block : List Text) (blocks : List (List Text)) :
    (block :: blocks).filterMap frameOf = (frameOf block).toList ++ blocks.filterMap frameOf := by
  rw [List.filterMap_cons]
  rcases frameOf block with - | f <;> rfl

/-- **Lines yield the frames of their blocks.** The frame in progress is that of the first. -/
theorem frames_eq (p : Pending) (lines : List Text) : frames p lines =
    match (Lines.cut [] lines).1 with
    | [] => []
    | block :: blocks => (block.foldl Pending.read p).flush.toList ++ blocks.filterMap frameOf := by
  induction lines generalizing p with
  | nil => rfl
  | cons line lines ih =>
    by_cases hline : line = []
    · subst hline
      rw [frames_nil_cons, Lines.cut_sep, ih]
      rcases (Lines.cut [] lines).1 with - | ⟨block, blocks⟩
      · rfl
      · exact congrArg (p.flush.toList ++ ·) (filterMap_frameOf_cons block blocks).symm
    · rw [frames_cons p hline, ih]
      rcases hcut : (Lines.cut [] lines).1 with - | ⟨block, blocks⟩
      · rw [Lines.cut_cons_of_nil hline hcut]
      · rw [Lines.cut_cons_of_cons hline hcut]
        rfl

theorem frames_cut (t : Text) : frames .empty (cut t).1 = framesOf t := by
  rw [framesOf, frames_eq]
  rcases (Lines.cut [] (cut t).1).1 with - | ⟨block, blocks⟩
  · rfl
  · rw [filterMap_frameOf_cons, frameOf]

/-! ## Lines that are none -/

/-- The line names the frame in progress or brings data. -/
def isField (line : Text) : Bool :=
  !isComment line && ((field line).1 == "event".toList || (field line).1 == "data".toList)

/-- Nothing is to come of the frame in progress but its end. -/
def onlyEnds : List Text → Bool
  | [] => false
  | line :: lines => line == [] || (!isField line && onlyEnds lines)

theorem read_of_not_isField (p : Pending) {line : Text} (h : ¬ isField line) : p.read line = p := by
  rw [isField, Bool.and_eq_true, Bool.or_eq_true, beq_iff_eq, beq_iff_eq, Bool.not_eq_true',
    not_and_or, not_or, Bool.not_eq_false] at h
  rw [Pending.read]
  rcases h with h | ⟨hevent, hdata⟩
  · rw [if_pos h]
  · rw [if_neg hevent, if_neg hdata, ite_self]

theorem read_ne_empty (p : Pending) {line : Text} (h : isField line) : p.read line ≠ .empty := by
  rw [isField, Bool.and_eq_true, Bool.or_eq_true, beq_iff_eq, beq_iff_eq, Bool.not_eq_true'] at h
  rw [Pending.read, if_neg (Bool.not_eq_true _ ▸ h.1)]
  split_ifs with hevent hdata
  · exact fun heq ↦ Option.some_ne_none _ (congrArg Pending.event heq)
  · exact fun heq ↦ List.append_ne_nil_of_right_ne_nil _ (List.cons_ne_nil _ _)
      (congrArg Pending.data heq)
  · exact absurd h.2 (not_or.mpr ⟨hevent, hdata⟩)

/-- How many frames are in progress. -/
def Pending.weight (p : Pending) : ℕ := p.flush.toList.length

theorem weight_empty : Pending.empty.weight = 0 := rfl

theorem weight_of_ne {p : Pending} (h : p ≠ .empty) : p.weight = 1 := by
  obtain ⟨f, hf⟩ := Option.ne_none_iff_exists'.mp (mt flush_eq_none_iff.mp h)
  rw [Pending.weight, hf]
  rfl

/-- The lines a reader sees, with an empty one for each that is none. -/
def seen (lines : List (Option Text)) : List Text := lines.map (·.getD [])

theorem seen_none (lines : List (Option Text)) : seen (none :: lines) = [] :: seen lines := rfl

theorem seen_some (line : Text) (lines : List (Option Text)) :
    seen (some line :: lines) = line :: seen lines := rfl

/-- **Lines that are none add frames**, and take none away. -/
theorem length_frames_le (p q : Pending) (lines : List (Option Text)) :
    (frames p lines.reduceOption).length ≤
      (frames q (seen lines)).length + (p.weight - q.weight) := by
  induction lines generalizing p q with
  | nil => exact Nat.zero_le _
  | cons line lines ih =>
    rcases line with - | line
    · have hle := ih p .empty
      rw [weight_empty] at hle
      rw [List.reduceOption_cons_of_none, seen_none, frames_nil_cons,
        List.length_append, ← Pending.weight]
      omega
    · rw [List.reduceOption_cons_of_some, seen_some]
      by_cases hline : line = []
      · have hle := ih .empty .empty
        subst hline
        rw [frames_nil_cons, frames_nil_cons, List.length_append, List.length_append,
          ← Pending.weight, ← Pending.weight]
        omega
      · rw [frames_cons p hline, frames_cons q hline]
        by_cases hfield : isField line
        · have hle := ih (p.read line) (q.read line)
          rw [weight_of_ne (read_ne_empty p hfield), weight_of_ne (read_ne_empty q hfield)] at hle
          omega
        · rw [read_of_not_isField p hfield, read_of_not_isField q hfield]
          exact ih p q

/-- A frame in progress that was ended too early is one too many, if something of it is to come or
its end is not. -/
theorem length_frames_le_of_not_onlyEnds (p : Pending) {lines : List (Option Text)}
    (h : ¬ onlyEnds lines.reduceOption) :
    (frames p lines.reduceOption).length ≤ (frames .empty (seen lines)).length := by
  induction lines with
  | nil => exact le_rfl
  | cons line lines ih =>
    rcases line with - | line
    · rw [List.reduceOption_cons_of_none] at h ⊢
      exact ih h
    · rw [List.reduceOption_cons_of_some] at h ⊢
      rw [onlyEnds, Bool.or_eq_true, beq_iff_eq, not_or, Bool.and_eq_true, not_and,
        Bool.not_eq_true'] at h
      rw [seen_some, frames_cons p h.1, frames_cons _ h.1]
      by_cases hfield : isField line
      · have hle := length_frames_le (p.read line) (Pending.empty.read line) lines
        rw [weight_of_ne (read_ne_empty p hfield), weight_of_ne (read_ne_empty _ hfield)] at hle
        exact hle
      · rw [read_of_not_isField p hfield, read_of_not_isField _ hfield]
        exact ih (h.2 (Bool.not_eq_true _ ▸ hfield))

/-- Where a line is none, no frame is in progress, or nothing of it is to come but its end. -/
def Harmless : Pending → List (Option Text) → Prop
  | _, [] => True
  | p, none :: lines => (p = .empty ∨ onlyEnds lines.reduceOption) ∧ Harmless p lines
  | p, some line :: lines => Harmless (p.onLine line) lines

theorem harmless_map_some (p : Pending) (lines : List Text) (rest : List (Option Text)) :
    Harmless p (lines.map some ++ rest) ↔ Harmless (lines.foldl Pending.onLine p) rest := by
  induction lines generalizing p with
  | nil => rfl
  | cons line lines ih => exact ih (p.onLine line)

/-- A frame in progress that was ended too early is the same one, if nothing of it is to come but
its end. -/
theorem flush_frames_iff {p : Pending} {lines : List (Option Text)}
    (h : onlyEnds lines.reduceOption)
    (hlater : ∀ line lines', some line :: lines' <:+ lines →
      (frames .empty (seen lines') = frames .empty lines'.reduceOption ↔ Harmless .empty lines')) :
    p.flush.toList ++ frames .empty (seen lines) = frames p lines.reduceOption ↔
      Harmless p lines := by
  induction lines with
  | nil => cases h
  | cons line lines ih =>
    have ih' := fun h ↦ ih h fun line lines' hs ↦ hlater line lines' (hs.trans (List.suffix_cons _ _))
    rcases line with - | line
    · rw [List.reduceOption_cons_of_none] at h ⊢
      rw [seen_none, frames_nil_cons, flush_empty, Option.toList_none, List.nil_append, Harmless,
        and_iff_right (.inr h)]
      exact ih' h
    · rw [List.reduceOption_cons_of_some] at h ⊢
      rw [seen_some, Harmless]
      by_cases hline : line = []
      · subst hline
        rw [frames_nil_cons, frames_nil_cons, flush_empty, Option.toList_none, List.nil_append,
          List.append_cancel_left_eq, Pending.onLine, if_pos rfl]
        exact hlater [] lines List.suffix_rfl
      · rw [onlyEnds, Bool.or_eq_true, beq_iff_eq, or_iff_right hline, Bool.and_eq_true,
          Bool.not_eq_true'] at h
        have hfield : ¬ isField line := Bool.not_eq_true _ ▸ h.1
        rw [frames_cons _ hline, frames_cons p hline, Pending.onLine, if_neg hline,
          read_of_not_isField p hfield, read_of_not_isField _ hfield]
        exact ih' h.2

/-- **Lines that are none** are harmless where they change nothing of what is read. -/
theorem frames_seen_iff (p : Pending) (lines : List (Option Text)) :
    frames p (seen lines) = frames p lines.reduceOption ↔ Harmless p lines := by
  induction hn : lines.length using Nat.strong_induction_on generalizing p lines with
  | _ n ih =>
    have hlater (q : Pending) {line : Option Text} {lines' : List (Option Text)}
        (hs : line :: lines' <:+ lines) :
        frames q (seen lines') = frames q lines'.reduceOption ↔ Harmless q lines' :=
      ih _ (hn ▸ Nat.lt_of_lt_of_le (Nat.lt_succ_self _) hs.length_le) q lines' rfl
    rcases lines with - | ⟨- | line, lines⟩
    · exact iff_of_true rfl trivial
    · rw [seen_none, List.reduceOption_cons_of_none, frames_nil_cons, Harmless]
      rcases eq_or_ne p .empty with rfl | hp
      · rw [and_iff_right (.inl rfl)]
        exact hlater .empty List.suffix_rfl
      · by_cases hends : onlyEnds lines.reduceOption
        · rw [and_iff_right (.inr hends)]
          exact flush_frames_iff hends fun line lines' hs ↦
            hlater .empty (hs.trans (List.suffix_cons _ _))
        · refine iff_of_false (fun heq ↦ ?_) fun h ↦ (h.1.elim hp hends)
          have hle := length_frames_le_of_not_onlyEnds p hends
          have hlength := congrArg List.length heq
          rw [List.length_append, ← Pending.weight, weight_of_ne hp] at hlength
          omega
    · rw [seen_some, List.reduceOption_cons_of_some, Harmless]
      by_cases hline : line = []
      · subst hline
        rw [frames_nil_cons, frames_nil_cons, List.append_cancel_left_eq, Pending.onLine,
          if_pos rfl]
        exact hlater .empty List.suffix_rfl
      · rw [frames_cons p hline, frames_cons p hline, Pending.onLine, if_neg hline]
        exact hlater _ List.suffix_rfl

/-! ## Cutting a stream -/

/-- The frame in progress after a text. -/
def pendingAfter (t : Text) : Pending := (cut t).1.foldl Pending.onLine .empty

/-- Where a line end is cut in two, no frame is in progress, or nothing of it is to come but its
end. -/
def CutsWell (texts : List Text) : Prop :=
  ∀ before part after, texts = before ++ part :: after → Splits before.flatten part →
    pendingAfter before.flatten = .empty ∨ onlyEnds (cut (part.tail ++ after.flatten)).1

theorem readTexts_eq (r : Reader) (texts : List Text) :
    readTexts r texts = frames r.pending (readParts r.buffer texts) := by
  induction texts generalizing r with
  | nil => rfl
  | cons text texts ih => rw [readTexts, ih, readParts, frames_append]; rfl

/-- The lines that are none are the line ends cut in two. -/
theorem harmless_byPart_iff (t : Text) (texts : List Text) :
    Harmless (pendingAfter t) (byPart t texts) ↔
      ∀ before part after, texts = before ++ part :: after → Splits (t ++ before.flatten) part →
        pendingAfter (t ++ before.flatten) = .empty ∨
          onlyEnds (cut (part.tail ++ after.flatten)).1 := by
  induction texts generalizing t with
  | nil => exact iff_of_true trivial fun before part after h ↦ by simp at h
  | cons text texts ih =>
    -- the first chunk, and the others after it
    have hsplit : (∀ before part after, text :: texts = before ++ part :: after →
        Splits (t ++ before.flatten) part → pendingAfter (t ++ before.flatten) = .empty ∨
          onlyEnds (cut (part.tail ++ after.flatten)).1) ↔
        (Splits t text → pendingAfter t = .empty ∨ onlyEnds (cut (text.tail ++ texts.flatten)).1) ∧
          Harmless (pendingAfter (t ++ text)) (byPart (t ++ text) texts) := by
      rw [ih]
      constructor
      · intro h
        refine ⟨fun hs ↦ ?_, fun before part after hparts hs ↦ ?_⟩
        · simpa using h [] text texts rfl (by simpa using hs)
        · simpa using h (text :: before) part after (by rw [hparts]; rfl) (by simpa using hs)
      · rintro ⟨hfirst, hlater⟩ (- | ⟨text', before⟩) part after hparts hs
        · obtain ⟨rfl, rfl⟩ := List.cons_eq_cons.mp hparts
          simpa using hfirst (by simpa using hs)
        · obtain ⟨rfl, hrest⟩ := List.cons_eq_cons.mp hparts
          simpa using hlater before part after hrest (by simpa using hs)
    rw [hsplit, byPart]
    by_cases hs : Splits t text
    · obtain ⟨hopen, u, rfl⟩ := splits_iff.mp hs
      have hlines : (cut (u ++ texts.flatten)).1 =
          (cut u).1 ++ (byPart (t ++ '\n' :: u) texts).reduceOption := by
        have hall := cut_parts (t ++ '\n' :: u) texts
        rw [List.append_assoc, List.cons_append, cut_append_lf hopen, cut_append_lf hopen,
          List.append_assoc, List.append_cancel_left_eq] at hall
        exact hall
      rw [if_pos hs, List.tail_cons, List.cons_append, Harmless, harmless_map_some,
        List.reduceOption_append, reduceOption_map_some, hlines, pendingAfter, pendingAfter,
        cut_append_lf hopen, List.foldl_append, imp_iff_right hs]
    · rw [if_neg hs, harmless_map_some, and_iff_right fun h ↦ absurd h hs, pendingAfter,
        pendingAfter, cut_append fun hopen hlf ↦ hs ⟨hopen, hlf⟩, List.foldl_append]

theorem readTexts_eq_iff (texts : List Text) :
    readTexts ⟨[], .empty⟩ texts = framesOf texts.flatten ↔ CutsWell texts := by
  have hread : readTexts ⟨[], .empty⟩ texts = frames .empty (seen (byPart [] texts)) :=
    (readTexts_eq _ _).trans (congrArg (frames .empty) (readParts_eq [] texts))
  have hlines : framesOf texts.flatten = frames .empty (byPart [] texts).reduceOption := by
    rw [← frames_cut, ← List.nil_append texts.flatten, cut_parts]
    rfl
  rw [hread, hlines, frames_seen_iff]
  exact harmless_byPart_iff [] texts

/-- **What is read** are the frames of the text, if and only if the chunks are cut well. -/
theorem readSseFrames_eq_iff (chunks : List Bytes) :
    readSseFrames chunks = framesOf (text chunks.flatten) ↔ CutsWell (decodeAll .new chunks) := by
  rw [← text_flatten]
  exact readTexts_eq_iff _

/-- Each line end of two characters stands where no frame is in progress, or where nothing of it is
to come but its end. -/
def LineEndsWell (t : Text) : Prop := ∀ u v, t = u ++ '\r' :: '\n' :: v →
  pendingAfter (u ++ ['\r']) = .empty ∨ onlyEnds (cut v).1

/-- **The frames do not depend on the chunks**, and are those that the text has an end of, if and
only if no line end of two characters stands inside a frame. -/
theorem cutsAlike_iff (bytes : Bytes) :
    ((∀ chunks chunks' : List Bytes, chunks.flatten = bytes → chunks'.flatten = bytes →
        readSseFrames chunks = readSseFrames chunks') ∧
      ∀ chunks : List Bytes, chunks.flatten = bytes →
        readSseFrames chunks = framesOf (text bytes)) ↔
      LineEndsWell (text bytes) := by
  constructor
  · rintro ⟨-, h⟩ u v huv
    -- the stream in two chunks, cut between the two characters
    obtain ⟨xs, ys, rfl, hxs⟩ := exists_cut (by decide) huv
    obtain ⟨rest, hall, happend⟩ := text_append xs ys
    have htext : text xs = u ++ ['\r'] := hxs
    have hrest : rest = '\n' :: v := by
      rw [happend, htext, List.append_assoc] at huv
      exact (List.cons_eq_cons.mp (List.append_cancel_left huv)).2
    have hwell := (readSseFrames_eq_iff [xs, ys]).mp (by simpa using h [xs, ys] (by simp))
    rw [hall, htext, hrest] at hwell
    simpa using hwell [u ++ ['\r']] ('\n' :: v) [] rfl ⟨by simpa using endsOpen_concat u, rfl⟩
  · intro h
    have hall (chunks : List Bytes) (hchunks : chunks.flatten = bytes) :
        readSseFrames chunks = framesOf (text bytes) := by
      subst hchunks
      refine (readSseFrames_eq_iff chunks).mpr fun before part after hparts hs ↦ ?_
      obtain ⟨hopen, v, rfl⟩ := splits_iff.mp hs
      obtain ⟨u, hu⟩ := hopen.exists_concat
      rw [hu]
      refine h u (v ++ after.flatten) ?_
      rw [← text_flatten, hparts, List.flatten_append, hu, List.flatten_cons]
      simp
    exact ⟨fun chunks chunks' hc hc' ↦ (hall chunks hc).trans (hall chunks' hc').symm, hall⟩

/-- The bytes of a text in the characters that are one byte. -/
def ascii (s : String) : Bytes := s.toList.map fun c ↦ c.toNat.toUInt8

theorem not_cutsAlike_splitLineEnd :
    ¬ ((∀ chunks chunks' : List Bytes, chunks.flatten = ascii "data: a\r\ndata: b" →
        chunks'.flatten = ascii "data: a\r\ndata: b" →
        readSseFrames chunks = readSseFrames chunks') ∧
      ∀ chunks : List Bytes, chunks.flatten = ascii "data: a\r\ndata: b" →
        readSseFrames chunks = framesOf (text (ascii "data: a\r\ndata: b"))) := by
  rintro ⟨h, -⟩
  -- the first chunk ends between the two characters, and the stream before its frame has ended
  have hframes := h [ascii "data: a\r", ascii "\ndata: b"] [ascii "data: a\r\ndata: b"]
    (by decide) (by decide)
  exact absurd hframes (by decide)

end QwenHarness.Provider
