import QwenHarness.Skills.Frontmatter
import Mathlib.Data.List.Chain
import Mathlib.Data.List.Nodup

/-!
# What is read from a frontmatter

Every line of an accepted text is blank, a comment, or in the section of one key, and the value of a
key is read from the lines of its section alone: `parseLines_reads`.

Two things are not so. The lines of a block may be indented in any way, so that what looks nested is
read as if it were not. And a comment is taken from what stands after a key but from nothing else,
while a pair of quotes with nothing between them is left out of a flow list but of nothing else.
-/

namespace QwenHarness.Skills

open Utf16
open Memory (newline space doubleQuote hash singleQuote hyphen colon bracket isLower isDigit isBlank
  beforeComment)

/-! ## Sections -/

/-- A line of a block: it is indented and no comment. -/
def isEntryLine (line : Text) : Bool := isIndented line && !isComment line

def itemOf (line : Text) : Text := (trim line).drop 2

def fieldKey (line : Text) : Text := keyOf (trim line)

def fieldRest (line : Text) : Text := restOf (trim line)

/-- What a value is read from: the text after the key, or all lines of the block. -/
inductive ReadsValue (rest : Text) : List Text → YamlValue → Prop
  | string (hne : inlineValue rest ≠ []) (hplain : (inlineValue rest).head? ≠ some bracket) :
      ReadsValue rest [] (.string (unquote (inlineValue rest)))
  | flow (hopen : (inlineValue rest).head? = some bracket)
      (hclose : (inlineValue rest).getLast? = some closingBracket) :
      ReadsValue rest [] (.list (flowItems (flowPieces (inlineValue rest))))
  | items {content : List Text} (hempty : inlineValue rest = []) (hne : content ≠ [])
      (hmark : ∀ line ∈ content, itemMark <+: trim line) :
      ReadsValue rest content (.list (content.map fun line ↦ unquote (itemOf line)))
  | fields {content : List Text} (hempty : inlineValue rest = []) (hne : content ≠ [])
      (hkey : ∀ line ∈ content, colon ∈ trim line ∧ isKey (fieldKey line) = true)
      (hnodup : (content.map fieldKey).Nodup) :
      ReadsValue rest content
        (.mapping (content.map fun line ↦ (fieldKey line, unquote (fieldRest line))))

/-- The line of a key, the lines below it that belong to it, and the value read from them. -/
structure Section where
  line : Text
  block : List Text
  value : YamlValue
  not_blank : isBlank line = false
  not_comment : isComment line = false
  not_indented : isIndented line = false
  colon_mem : colon ∈ line
  isKey_key : isKey (keyOf line) = true
  block_lines : ∀ l ∈ block, isBlank l = true ∨ isEntryLine l = true
  reads : ReadsValue (restOf line) (block.filter fun l ↦ !isBlank l) value

namespace Section

variable (s : Section)

def key : Text := keyOf s.line

def entry : Text × YamlValue := (s.key, s.value)

/-- The text after the key. -/
def rest : Text := restOf s.line

/-- The lines of the block that are not blank. -/
def content : List Text := s.block.filter fun l ↦ !isBlank l

end Section

/-- Every line is blank, a comment, or in one section. -/
inductive Reads : List Text → List Section → Prop
  | nil : Reads [] []
  | bare {line : Text} {lines : List Text} {sections : List Section}
      (hbare : isBlank line = true ∨ isComment line = true) (hlines : Reads lines sections) :
      Reads (line :: lines) sections
  | entry {lines : List Text} {sections : List Section} (s : Section)
      (hlines : Reads lines sections) : Reads (s.line :: (s.block ++ lines)) (s :: sections)

/-- A text, what comes out of it, and the sections that this is read from. -/
structure ReadsAs (lines : List Text) (out : List (Text × YamlValue)) (sections : List Section) :
    Prop where
  reads : Reads lines sections
  out_eq : out = sections.map Section.entry
  keys_nodup : (out.map Prod.fst).Nodup
  fields_nodup : ∀ s ∈ sections, ∀ entries, s.value = .mapping entries →
    (entries.map Prod.fst).Nodup

/-! ### Indentation -/

def indentation (line : Text) : Text := line.takeWhile isSpace

/-- All lines of the block have one indentation. -/
def Section.IsEven (s : Section) : Prop :=
  ∀ l ∈ s.content, ∀ l' ∈ s.content, indentation l = indentation l'

/-- Two lines of a block that follow one another have one indentation. -/
def SameIndentation (l l' : Text) : Prop :=
  isEntryLine l = true → isEntryLine l' = true → indentation l = indentation l'

instance decidableSameIndentation : DecidableRel SameIndentation := fun l l' ↦
  inferInstanceAs (Decidable (isEntryLine l = true → isEntryLine l' = true →
    indentation l = indentation l'))

/-- Blank lines apart, no indented line has another indentation than an indented line above it. -/
def EvenlyIndented (lines : List Text) : Prop :=
  (lines.filter fun l ↦ !isBlank l).IsChain SameIndentation

instance decidableEvenlyIndented (lines : List Text) : Decidable (EvenlyIndented lines) :=
  inferInstanceAs (Decidable (List.IsChain _ _))

/-! ### Scalars -/

/-- Outside quotes is neither a comma nor a bracket; the first argument is the quote that is
open. -/
def isPlainOutside : Option CodeUnit → Text → Bool
  | _, [] => true
  | some quote, ch :: t => isPlainOutside (if ch = quote then none else some quote) t
  | none, ch :: t =>
    if isQuote ch then isPlainOutside (some ch) t
    else decide (ch ≠ comma ∧ ch ≠ bracket ∧ ch ≠ closingBracket) && isPlainOutside none t

structure IsScalar (t : Text) : Prop where
  ne_nil : t ≠ []
  trim_eq : trim t = t
  newline_notMem : newline ∉ t
  tab_notMem : tab ∉ t
  plain : isPlainOutside none t = true

/-- Where a text stands in a section, and what it is read as; `none` when it is left out. -/
inductive Section.Denotes (s : Section) (t : Text) : Option Text → Prop
  | inline {value : Text} (hrest : trim s.rest = t) (hvalue : s.value = .string value) :
      s.Denotes t (some value)
  | comment (hrest : trim s.rest = t) (hempty : inlineValue s.rest = []) : s.Denotes t none
  | piece {items before after : List Text} {piece : Text} {v : Option Text}
      (hopen : (inlineValue s.rest).head? = some bracket) (hvalue : s.value = .list items)
      (hpieces : flowPieces (inlineValue s.rest) = before ++ piece :: after)
      (hpiece : trim piece = t) (hitems : items = flowItems before ++ v.toList ++ flowItems after) :
      s.Denotes t v
  | item {i : ℕ} {line value : Text} {items : List Text} (hline : s.content[i]? = some line)
      (hitem : trim (itemOf line) = t) (hvalue : s.value = .list items)
      (hget : items[i]? = some value) : s.Denotes t (some value)
  | field {i : ℕ} {line key value : Text} {entries : List (Text × Text)}
      (hline : s.content[i]? = some line) (hfield : trim (fieldRest line) = t)
      (hvalue : s.value = .mapping entries) (hget : entries[i]? = some (key, value)) :
      s.Denotes t (some value)

/-- A text stands in an accepted text and is read as `v` there. -/
def Denotes (t : Text) (v : Option Text) : Prop :=
  ∃ (yaml file : Text) (firstLine : ℕ) (out : List (Text × YamlValue)) (sections : List Section),
    parseFrontmatterYaml yaml file firstLine = .ok out ∧
      ReadsAs (yaml.splitOn newline) out sections ∧ ∃ s ∈ sections, s.Denotes t v

def commentMark : Text := [space, hash]

/-- A text in which no comment begins, at its start or behind a space, unless it begins with a
quote; and not a pair of quotes with nothing between them. -/
def IsSafe (t : Text) : Prop :=
  (t.head?.any isQuote = true ∨ ¬ commentMark <:+: space :: t) ∧
    t ≠ [doubleQuote, doubleQuote] ∧ t ≠ [singleQuote, singleQuote]

/-! ## Reading lines -/

section Lines

variable {file key rawLine line rest : Text} {lineNo skip m : ℕ} {lines block content : List Text}
  {out out' : List (Text × YamlValue)} {value : YamlValue} {items : List Text}
  {mapping entries : List (Text × Text)}

theorem parseLines_skip (file : Text) (lineNo skip : ℕ) (out : List (Text × YamlValue))
    (lines : List Text) : parseLines file lineNo skip out lines =
      parseLines file (lineNo + skip) 0 out (lines.drop skip) := by
  induction lines generalizing lineNo skip with
  | nil =>
    rw [List.drop_nil, parseLines, parseLines]
  | cons line lines ih =>
    cases skip with
    | zero => rfl
    | succ skip => rw [parseLines, ih, List.drop_succ_cons, Nat.add_right_comm, Nat.add_assoc]

theorem map_eq_ok_iff {ε α β : Type} {f : α → β} {x : Except ε α} {b : β} :
    x.map f = .ok b ↔ ∃ a, x = .ok a ∧ f a = b := by
  cases x with
  | error e => simp [Except.map]
  | ok a => simp [Except.map]

theorem mem_of_contains {u : CodeUnit} (h : ¬ (!line.contains u) = true) : u ∈ line := by
  simpa using h

theorem nodup_keys_concat {β : Type} {entries : List (Text × β)} {value : β}
    (hnodup : (entries.map Prod.fst).Nodup) (hkey : key ∉ entries.map Prod.fst) :
    ((entries ++ [(key, value)]).map Prod.fst).Nodup := by
  rw [List.map_append, List.map_singleton, ← List.concat_eq_append]
  exact List.Nodup.concat hkey hnodup

/-- A list without items is no exception. -/
theorem parseFlowList_spec {raw : Text} (h : parseFlowList file lineNo key raw = .ok items) :
    items = flowItems (flowPieces raw) := by
  rw [parseFlowList] at h
  split_ifs at h with hinner hquote
  · rw [← Except.ok.inj h, flowPieces, hinner]
    rfl
  · exact (Except.ok.inj h).symm

/-- The lines of a block are those that are not blank, and all of them are indented. -/
theorem collectBlock_spec (h : collectBlock file key lineNo lines = .ok (block, m)) :
    block = (lines.take m).filter (fun l ↦ !isBlank l) ∧
      ∀ l ∈ lines.take m, isBlank l = true ∨ isIndented l = true := by
  induction lines generalizing lineNo block m with
  | nil =>
    rw [collectBlock, Except.ok.injEq, Prod.mk.injEq] at h
    rw [← h.1, ← h.2]
    exact ⟨rfl, fun l hl ↦ absurd hl List.not_mem_nil⟩
  | cons candidate lines ih =>
    rw [collectBlock] at h
    split_ifs at h with hblank hindented htab
    · obtain ⟨r, hr, h⟩ := map_eq_ok_iff.mp h
      obtain ⟨hblock, hall⟩ := ih hr
      rw [Prod.mk.injEq] at h
      rw [← h.1, ← h.2, List.take_succ_cons, List.filter_cons_of_neg (by simp [hblank]),
        List.forall_mem_cons]
      exact ⟨hblock, .inl hblank, hall⟩
    · rw [Except.ok.injEq, Prod.mk.injEq] at h
      rw [← h.1, ← h.2]
      exact ⟨rfl, fun l hl ↦ absurd hl List.not_mem_nil⟩
    · obtain ⟨r, hr, h⟩ := map_eq_ok_iff.mp h
      obtain ⟨hblock, hall⟩ := ih hr
      rw [Prod.mk.injEq] at h
      rw [← h.1, ← h.2, List.take_succ_cons, List.filter_cons_of_pos (by simp [hblank]),
        List.forall_mem_cons, ← hblock]
      exact ⟨rfl, .inr (by simpa using hindented), hall⟩

theorem readItems_spec (h : readItems file lineNo key content = .ok items) :
    (∀ l ∈ content, itemMark <+: trim l) ∧
      items = content.map fun l ↦ unquote (itemOf l) := by
  induction content generalizing items with
  | nil =>
    rw [readItems, Except.ok.injEq] at h
    exact ⟨fun l hl ↦ absurd hl List.not_mem_nil, h.symm⟩
  | cons l content ih =>
    rw [readItems] at h
    split_ifs at h with hmark
    obtain ⟨items, hitems, rfl⟩ := map_eq_ok_iff.mp h
    obtain ⟨hall, rfl⟩ := ih hitems
    rw [List.forall_mem_cons]
    exact ⟨⟨hmark, hall⟩, rfl⟩

theorem readFields_spec (h : readFields file lineNo key mapping content = .ok entries) :
    (∀ l ∈ content, colon ∈ trim l ∧ isKey (fieldKey l) = true) ∧
      entries = mapping ++ content.map (fun l ↦ (fieldKey l, unquote (fieldRest l))) ∧
      ((mapping.map Prod.fst).Nodup → (entries.map Prod.fst).Nodup) := by
  induction content generalizing mapping with
  | nil =>
    rw [readFields, Except.ok.injEq] at h
    subst h
    exact ⟨fun l hl ↦ absurd hl List.not_mem_nil, (List.append_nil _).symm, id⟩
  | cons l content ih =>
    rw [readFields] at h
    dsimp only at h
    split_ifs at h with hcolon hkey hdup
    obtain ⟨hall, hentries, hnodup⟩ := ih h
    rw [List.forall_mem_cons]
    refine ⟨⟨⟨mem_of_contains hcolon, Bool.not_not_eq.mp hkey⟩, hall⟩, ?_, fun hmapping ↦ hnodup ?_⟩
    · rw [hentries, List.append_assoc, List.map_cons, List.singleton_append]
      rfl
    · exact nodup_keys_concat hmapping fun hmem ↦ hdup (List.contains_iff_mem.mpr hmem)

/-- What begins with the sign of a comment is no key. -/
theorem isKey_keyOf_of_hash (h : line.head? = some hash) : isKey (keyOf line) = false := by
  rcases line with - | ⟨u, us⟩
  · exact absurd h.symm (Option.some_ne_none _)
  · rw [List.head?_cons, Option.some.injEq] at h
    subst h
    rw [keyOf, List.takeWhile_cons_of_pos (by decide), trim_cons (by decide)]
    rfl

theorem isComment_of_mark (h : itemMark <+: trim line) : isComment line = false := by
  obtain ⟨t, ht⟩ := h
  rw [isComment, ← ht]
  rfl

theorem isComment_of_isKey (h : isKey (fieldKey line) = true) : isComment line = false := by
  by_contra hc
  rw [Bool.not_eq_false, isComment, decide_eq_true_eq] at hc
  rw [fieldKey, isKey_keyOf_of_hash hc] at h
  exact Bool.false_ne_true h

theorem readBlock_spec (hempty : inlineValue rest = [])
    (h : readBlock file lineNo key content = .ok value) :
    ReadsValue rest content value ∧ ∀ l ∈ content, isComment l = false := by
  rcases content with - | ⟨first, block⟩
  · rw [readBlock] at h
    cases h
  · rw [readBlock] at h
    split_ifs at h with hmark
    · obtain ⟨items, hitems, rfl⟩ := map_eq_ok_iff.mp h
      obtain ⟨hall, rfl⟩ := readItems_spec hitems
      exact ⟨.items hempty (List.cons_ne_nil _ _) hall, fun l hl ↦ isComment_of_mark (hall l hl)⟩
    · obtain ⟨entries, hentries, rfl⟩ := map_eq_ok_iff.mp h
      obtain ⟨hall, rfl, hnodup⟩ := readFields_spec hentries
      have hnodup := hnodup List.nodup_nil
      rw [List.nil_append, List.map_map] at hnodup
      exact ⟨.fields hempty (List.cons_ne_nil _ _) hall hnodup,
        fun l hl ↦ isComment_of_isKey (hall l hl).2⟩

/-- A block of lines, all of which are blank or of an entry. -/
theorem isBlank_or_isEntryLine (hblock : ∀ l ∈ block, isBlank l = true ∨ isIndented l = true)
    (hcontent : ∀ l ∈ block.filter (fun l ↦ !isBlank l), isComment l = false) :
    ∀ l ∈ block, isBlank l = true ∨ isEntryLine l = true := by
  intro l hl
  rcases hblock l hl with hblank | hindented
  · exact .inl hblank
  · by_cases hblank : isBlank l = true
    · exact .inl hblank
    · have hcomment := hcontent l (List.mem_filter.mpr ⟨hl, by simpa using hblank⟩)
      right
      rw [isEntryLine, hindented, hcomment]
      rfl

/-- **What a line does.** Nothing, or it begins a section, to which the next lines belong. -/
theorem readLine_cases {r : Option (Text × YamlValue × ℕ)}
    (h : readLine file lineNo rawLine lines = .ok r) :
    (r = none ∧ (isBlank rawLine = true ∨ isComment rawLine = true)) ∨
      ∃ (s : Section) (m : ℕ), s.line = rawLine ∧ s.block = lines.take m ∧
        r = some (s.key, s.value, m) := by
  rw [readLine] at h
  dsimp only at h
  split_ifs at h with htab hbare hindented hcolon hkey hopen hclose hne
  · exact .inl ⟨(Except.ok.inj h).symm, by simpa using hbare⟩
  all_goals
    right
    rw [Bool.or_eq_true, not_or, Bool.not_eq_true, Bool.not_eq_true] at hbare
    rw [Bool.not_eq_true] at hindented
    have hcolon := mem_of_contains hcolon
    rw [Bool.not_not_eq] at hkey
  · obtain ⟨items, hitems, rfl⟩ := map_eq_ok_iff.mp h
    rw [parseFlowList_spec hitems]
    exact ⟨⟨rawLine, [], _, hbare.1, hbare.2, hindented, hcolon, hkey,
      fun l hl ↦ absurd hl List.not_mem_nil, .flow hopen (not_not.mp hclose)⟩, 0, rfl, rfl, rfl⟩
  · rw [Except.ok.injEq] at h
    exact ⟨⟨rawLine, [], _, hbare.1, hbare.2, hindented, hcolon, hkey,
      fun l hl ↦ absurd hl List.not_mem_nil, .string hne hopen⟩, 0, rfl, rfl, h.symm⟩
  · rw [ne_eq, not_not] at hne
    rcases hcollect : collectBlock file (keyOf rawLine) (lineNo + 1) lines with e | ⟨content, m⟩
    · rw [hcollect] at h
      cases h
    · rw [hcollect] at h
      obtain ⟨value, hvalue, rfl⟩ := map_eq_ok_iff.mp h
      obtain ⟨hcontent, hlines⟩ := collectBlock_spec hcollect
      obtain ⟨hreads, hcomment⟩ := readBlock_spec hne hvalue
      rw [hcontent] at hreads hcomment
      exact ⟨⟨rawLine, lines.take m, value, hbare.1, hbare.2, hindented, hcolon, hkey,
        isBlank_or_isEntryLine hlines hcomment, hreads⟩, m, rfl, rfl, rfl⟩

theorem setKey_spec (h : setKey file lineNo out key value = .ok out') :
    key ∉ out.map Prod.fst ∧ out' = out ++ [(key, value)] := by
  rw [setKey] at h
  split_ifs at h with hmem
  exact ⟨fun h ↦ hmem (List.contains_iff_mem.mpr h), (Except.ok.inj h).symm⟩

/-- **Every line is read once.** The lines of an accepted text are blank, comments, or those of the
sections, and what comes out has an entry for each section and no key twice. -/
theorem parseLines_reads (hnodup : (out.map Prod.fst).Nodup)
    (h : parseLines file lineNo 0 out lines = .ok out') :
    ∃ sections, Reads lines sections ∧ out' = out ++ sections.map Section.entry ∧
      (out'.map Prod.fst).Nodup := by
  induction hn : lines.length using Nat.strong_induction_on generalizing lines lineNo out with
  | _ n ih =>
    rcases lines with - | ⟨rawLine, lines⟩
    · rw [parseLines, Except.ok.injEq] at h
      exact ⟨[], .nil, by rw [← h, List.map_nil, List.append_nil], h ▸ hnodup⟩
    · rw [parseLines] at h
      rcases hline : readLine file lineNo rawLine lines with e | r
      · rw [hline] at h
        cases h
      · rw [hline] at h
        rcases readLine_cases hline with ⟨rfl, hbare⟩ | ⟨s, m, rfl, hblock, rfl⟩
        · obtain ⟨sections, hreads, hout⟩ :=
            ih lines.length (hn ▸ Nat.lt_succ_self _) hnodup h rfl
          exact ⟨sections, .bare hbare hreads, hout⟩
        · rcases hset : setKey file lineNo out s.key s.value with e | out₁
          · simp only [hset] at h
            cases h
          · simp only [hset] at h
            obtain ⟨hkey, rfl⟩ := setKey_spec hset
            rw [parseLines_skip] at h
            have hlt : (lines.drop m).length < n := by
              rw [← hn, List.length_drop, List.length_cons]
              omega
            obtain ⟨sections, hreads, rfl, hkeys⟩ :=
              ih _ hlt (nodup_keys_concat hnodup hkey) h rfl
            have hentry := Reads.entry s hreads
            rw [hblock, List.take_append_drop] at hentry
            refine ⟨s :: sections, hentry, ?_, hkeys⟩
            rw [List.append_assoc, List.map_cons]
            rfl

end Lines

/-! ## One value, one indentation -/

section Value

variable {rest line value t : Text} {content lines items : List Text} {v : Option Text}
  {entries : List (Text × Text)} {sections : List Section} {s : Section}
  {out : List (Text × YamlValue)}

theorem ReadsValue.string_inv (h : ReadsValue rest content (.string value)) :
    value = unquote (inlineValue rest) := by
  cases h with
  | string hne hplain => rfl

theorem ReadsValue.list_inv (h : ReadsValue rest content (.list items)) :
    (content = [] ∧ items = flowItems (flowPieces (inlineValue rest))) ∨
      (inlineValue rest = [] ∧ items = content.map fun line ↦ unquote (itemOf line)) := by
  cases h with
  | flow hopen hclose => exact .inl ⟨rfl, rfl⟩
  | items hempty hne hmark => exact .inr ⟨hempty, rfl⟩

theorem ReadsValue.mapping_inv (h : ReadsValue rest content (.mapping entries)) :
    entries = content.map (fun line ↦ (fieldKey line, unquote (fieldRest line))) ∧
      (content.map fieldKey).Nodup := by
  cases h with
  | fields hempty hne hkey hnodup => exact ⟨rfl, hnodup⟩

/-- No field of a section is read twice. -/
theorem Section.fields_nodup (h : s.value = .mapping entries) : (entries.map Prod.fst).Nodup := by
  have hreads := s.reads
  rw [h] at hreads
  obtain ⟨rfl, hnodup⟩ := hreads.mapping_inv
  rwa [List.map_map]

/-- **Every line is read once.** An accepted text is read from sections. -/
theorem exists_readsAs {yaml file : Text} {firstLine : ℕ}
    (h : parseFrontmatterYaml yaml file firstLine = .ok out) :
    ∃ sections, ReadsAs (yaml.splitOn newline) out sections := by
  have hnodup : (([] : List (Text × YamlValue)).map Prod.fst).Nodup := List.nodup_nil
  obtain ⟨sections, hreads, rfl, hkeys⟩ := parseLines_reads hnodup h
  exact ⟨sections, hreads, List.nil_append _, hkeys, fun s _ entries ↦ Section.fields_nodup⟩

/-! ### Indentation -/

theorem isEntryLine_of_isComment (h : isComment line = true) : isEntryLine line = false := by
  rw [isEntryLine, h, Bool.not_true, Bool.and_false]

theorem Section.isEntryLine_line (s : Section) : isEntryLine s.line = false := by
  rw [isEntryLine, s.not_indented, Bool.false_and]

theorem Section.isEntryLine_content (s : Section) (l : Text) (hl : l ∈ s.content) :
    isEntryLine l = true := by
  obtain ⟨hl, hblank⟩ := List.mem_filter.mp hl
  exact (s.block_lines l hl).resolve_left (by simpa using hblank)

/-- Above the first section no line is one of a block. -/
theorem Reads.isEntryLine_head (h : Reads lines sections) :
    ∀ l ∈ (lines.filter fun l ↦ !isBlank l).head?, isEntryLine l = false := by
  induction h with
  | nil => exact fun l hl ↦ absurd hl (Option.not_mem_none l)
  | @bare line lines sections hbare hlines ih =>
    by_cases hblank : isBlank line = true
    · rwa [List.filter_cons_of_neg (by simp [hblank])]
    · rw [List.filter_cons_of_pos (by simp [hblank]), List.head?_cons]
      intro l hl
      rw [← Option.some.inj hl]
      exact isEntryLine_of_isComment (hbare.resolve_left hblank)
  | entry s hlines ih =>
    rw [List.filter_cons_of_pos (by simp [s.not_blank]), List.head?_cons]
    intro l hl
    rw [← Option.some.inj hl]
    exact s.isEntryLine_line

theorem sameIndentation_of_left (h : isEntryLine line = false) (l : Text) :
    SameIndentation line l :=
  fun hentry _ ↦ absurd (h.symm.trans hentry) Bool.false_ne_true

theorem sameIndentation_of_right (h : isEntryLine line = false) (l : Text) :
    SameIndentation l line :=
  fun _ hentry ↦ absurd (h.symm.trans hentry) Bool.false_ne_true

/-- Neighbours with one indentation make a block with one indentation. -/
theorem Section.isChain_content_iff (s : Section) :
    s.content.IsChain SameIndentation ↔ s.IsEven := by
  have hiff : ∀ l l', l ∈ s.content → l' ∈ s.content →
      (SameIndentation l l' ↔ indentation l = indentation l') := fun l l' hl hl' ↦
    ⟨fun h ↦ h (s.isEntryLine_content l hl) (s.isEntryLine_content l' hl'), fun h _ _ ↦ h⟩
  rw [List.IsChain.iff_of_mem_imp hiff]
  have : Trans (fun l l' ↦ indentation l = indentation l')
      (fun l l' ↦ indentation l = indentation l') (fun l l' ↦ indentation l = indentation l') :=
    ⟨fun h h' ↦ h.trans h'⟩
  rw [List.isChain_iff_pairwise]
  refine ⟨fun h ↦ ?_, fun h ↦ List.pairwise_of_forall_mem_list h⟩
  exact h.forall_of_forall_of_flip (fun _ _ ↦ rfl) (h.imp Eq.symm)

theorem Reads.isEven_iff (h : Reads lines sections) :
    (∀ s ∈ sections, s.IsEven) ↔ EvenlyIndented lines := by
  induction h with
  | nil => exact iff_of_true (fun s hs ↦ absurd hs List.not_mem_nil) List.isChain_nil
  | @bare line lines sections hbare hlines ih =>
    rw [ih, EvenlyIndented, EvenlyIndented]
    by_cases hblank : isBlank line = true
    · rw [List.filter_cons_of_neg (by simp [hblank])]
    · rw [List.filter_cons_of_pos (by simp [hblank]), List.isChain_cons]
      have hline := isEntryLine_of_isComment (hbare.resolve_left hblank)
      exact (and_iff_right fun l _ ↦ sameIndentation_of_left hline l).symm
  | @entry lines sections s hlines ih =>
    rw [List.forall_mem_cons, ih, EvenlyIndented, EvenlyIndented,
      List.filter_cons_of_pos (by simp [s.not_blank]), List.filter_append, List.isChain_cons,
      List.isChain_append]
    have hbetween : ∀ l ∈ s.content.getLast?,
        ∀ l' ∈ (lines.filter fun l ↦ !isBlank l).head?, SameIndentation l l' :=
      fun l _ l' hl' ↦ sameIndentation_of_right (hlines.isEntryLine_head l' hl') l
    rw [← s.isChain_content_iff]
    constructor
    · rintro ⟨hblock, hlines⟩
      exact ⟨fun l _ ↦ sameIndentation_of_left s.isEntryLine_line l, hblock, hlines, hbetween⟩
    · rintro ⟨_, hblock, hlines, _⟩
      exact ⟨hblock, hlines⟩

end Value

/-! ### Scalars -/

section Scalar

variable {rest line raw raw' t w : Text} {u : CodeUnit} {v : Option Text}
  {content items : List Text} {entries : List (Text × Text)} {s : Section}

theorem unquote_congr (h : trim raw = trim raw') : unquote raw = unquote raw' := by
  rw [unquote, unquote, Memory.unquote, Memory.unquote, h]

theorem unescape_eq_nil (h : Memory.unescape t = []) : t = [] := by
  rcases t with - | ⟨a, - | ⟨b, t⟩⟩
  · rfl
  · exact absurd h (List.cons_ne_nil _ _)
  · rw [Memory.unescape] at h
    split_ifs at h

theorem undouble_eq_nil (h : Memory.undouble t = []) : t = [] := by
  rcases t with - | ⟨a, - | ⟨b, t⟩⟩
  · rfl
  · exact absurd h (List.cons_ne_nil _ _)
  · rw [Memory.undouble] at h
    split_ifs at h

/-- Only two quotes with nothing between them denote nothing. -/
theorem unquote_ne_nil (hscalar : IsScalar t) (hd : t ≠ [doubleQuote, doubleQuote])
    (hs : t ≠ [singleQuote, singleQuote]) : unquote t ≠ [] := by
  have hne := hscalar.ne_nil
  rw [unquote, Memory.unquote, hscalar.trim_eq]
  rcases t with - | ⟨a, - | ⟨b, t⟩⟩
  · exact hne
  · exact List.cons_ne_nil _ _
  · dsimp only
    split_ifs with hdouble hsingle
    · intro h
      have hnil := unescape_eq_nil h
      rcases t with - | ⟨c, t⟩
      · obtain ⟨rfl, hlast⟩ := hdouble
        rw [List.getLast?_singleton, Option.some.injEq] at hlast
        exact hd (hlast ▸ rfl)
      · exact absurd hnil (List.cons_ne_nil _ _)
    · intro h
      have hnil := undouble_eq_nil h
      rcases t with - | ⟨c, t⟩
      · obtain ⟨rfl, hlast⟩ := hsingle
        rw [List.getLast?_singleton, Option.some.injEq] at hlast
        exact hs (hlast ▸ rfl)
      · exact absurd hnil (List.cons_ne_nil _ _)
    · exact List.cons_ne_nil _ _

/-! ### Comments -/

theorem eq_of_commentMark_le (h : commentMark <+: u :: t) :
    u = space ∧ t.head? = some hash := by
  obtain ⟨after, hafter⟩ := h
  rw [commentMark, List.cons_append, List.cons.injEq] at hafter
  rw [← hafter.1, ← hafter.2]
  exact ⟨rfl, rfl⟩

theorem beforeComment_eq_self_of_not (h : ¬ commentMark <:+: t) : beforeComment t = t := by
  induction t with
  | nil => rfl
  | cons a t ih =>
    have ih := ih fun hinfix ↦ h (List.infix_cons hinfix)
    rcases t with - | ⟨b, t⟩
    · rfl
    · rw [beforeComment, if_neg, ih]
      rintro ⟨rfl, rfl⟩
      exact h ⟨[], t, rfl⟩

theorem commentMark_infix_dropWhile (h : commentMark <:+: rest) :
    commentMark <:+: space :: rest.dropWhile isSpace := by
  induction rest with
  | nil => exact absurd (List.infix_nil.mp h) (List.cons_ne_nil _ _)
  | cons a rest ih =>
    by_cases hspace : isSpace a = true
    · rw [List.dropWhile_cons_of_pos hspace]
      rcases List.infix_cons_iff.mp h with hprefix | hinfix
      · obtain ⟨us, rfl⟩ := List.head?_eq_some_iff.mp (eq_of_commentMark_le hprefix).2
        rw [List.dropWhile_cons_of_neg (by decide)]
        exact ⟨[], us, rfl⟩
      · exact ih hinfix
    · rw [List.dropWhile_cons_of_neg hspace]
      exact List.infix_cons h

theorem commentMark_infix_trimEnd (h : commentMark <:+: u :: rest) :
    commentMark <:+: u :: trimEnd rest := by
  induction rest using List.reverseRecOn with
  | nil => exact h
  | append_singleton rest a ih =>
    by_cases hspace : isSpace a = true
    · rw [trimEnd, List.rdropWhile_concat_pos _ _ _ hspace, ← trimEnd]
      rw [← List.cons_append, List.infix_concat_iff] at h
      refine ih (h.resolve_left fun hsuffix ↦ ?_)
      have hlast : hash = a := by
        obtain ⟨before, hbefore⟩ := hsuffix
        have := congrArg List.getLast? hbefore
        rw [List.getLast?_append, List.getLast?_concat] at this
        exact Option.some.inj this
      rw [← hlast] at hspace
      exact absurd hspace (by decide)
    · rw [trimEnd, List.rdropWhile_concat_neg _ _ _ hspace]
      exact h

/-- A comment that is taken from the text after a key begins in the trimmed text. -/
theorem commentMark_infix_trim (h : commentMark <:+: rest) : commentMark <:+: space :: trim rest :=
  commentMark_infix_trimEnd (commentMark_infix_dropWhile h)

/-- After a key, nothing is taken from a text in which no comment begins. -/
theorem inlineValue_of_isSafe (hsafe : IsSafe t) (hrest : trim rest = t) :
    inlineValue rest = t := by
  rw [inlineValue, hrest]
  split_ifs with hquote
  · rfl
  · have hnot := hsafe.1.resolve_left hquote
    rw [beforeComment_eq_self_of_not fun h ↦ hnot (hrest ▸ commentMark_infix_trim h), hrest]

/-! ### What a text is read as -/

theorem flowItems_append_cons (before after : List Text) (piece : Text) :
    flowItems (before ++ piece :: after) =
      flowItems before ++ flowItems [piece] ++ flowItems after := by
  rw [flowItems, List.map_append, List.filter_append, List.map_cons, ← List.singleton_append,
    List.filter_append, ← List.append_assoc]
  rfl

theorem flowItems_singleton (h : unquote w ≠ []) : flowItems [w] = [unquote w] := by
  rw [flowItems, List.map_singleton, List.filter_cons_of_pos (by simpa using h)]
  rfl

/-- **One value.** Wherever a text stands in which no comment begins, quotes are all that is
taken. -/
theorem Section.Denotes.eq_unquote (h : s.Denotes t v) (hscalar : IsScalar t) (hsafe : IsSafe t) :
    v = some (unquote t) := by
  have hreads := s.reads
  have htrim : ∀ {raw}, trim raw = t → unquote raw = unquote t := fun hraw ↦
    unquote_congr (hraw.trans hscalar.trim_eq.symm)
  cases h with
  | @inline value hrest hvalue =>
    rw [hvalue] at hreads
    rw [hreads.string_inv, ← Section.rest, inlineValue_of_isSafe hsafe hrest]
  | comment hrest hempty =>
    exact absurd ((inlineValue_of_isSafe hsafe hrest).symm.trans hempty) hscalar.ne_nil
  | @piece items before after piece v hopen hvalue hpieces hpiece hitems =>
    rw [hvalue] at hreads
    rcases hreads.list_inv with ⟨_, hflow⟩ | ⟨hempty, _⟩
    · rw [← Section.rest, hpieces, flowItems_append_cons, hitems,
        List.append_cancel_right_eq, List.append_cancel_left_eq, flowItems_singleton
          (htrim hpiece ▸ unquote_ne_nil hscalar hsafe.2.1 hsafe.2.2), htrim hpiece] at hflow
      rcases v with - | v
      · exact absurd hflow (List.cons_ne_nil _ _).symm
      · exact congrArg some (List.cons.inj hflow).1
    · rw [Section.rest, hempty] at hopen
      exact absurd hopen.symm (Option.some_ne_none _)
  | @item i line value items hline hitem hvalue hget =>
    rw [hvalue] at hreads
    rcases hreads.list_inv with ⟨hnil, _⟩ | ⟨_, rfl⟩
    · rw [Section.content, hnil, List.getElem?_nil] at hline
      exact absurd hline.symm (Option.some_ne_none _)
    · rw [List.getElem?_map, ← Section.content, hline, Option.map_some, Option.some.injEq] at hget
      rw [← hget, htrim hitem]
  | @field i line key value entries hline hfield hvalue hget =>
    rw [hvalue] at hreads
    obtain ⟨rfl, -⟩ := hreads.mapping_inv
    rw [List.getElem?_map, ← Section.content, hline, Option.map_some, Option.some.injEq,
      Prod.mk.injEq] at hget
    rw [← hget.2, htrim hfield]

end Scalar

/-! ### Texts of a few lines -/

section Documents

variable {t us value : Text} {u : CodeUnit} {yamlValue : YamlValue} {v : Option Text}

/-- A text of one section is accepted when its line is read. -/
theorem denotes_of_readLine {key : Text} (line : Text) (lines : List Text)
    (hnewline : ∀ l ∈ line :: lines, newline ∉ l)
    (h : readLine [] 1 line lines = .ok (some (key, yamlValue, lines.length)))
    (hdenotes : ∀ s : Section, s.line = line → s.block = lines → s.value = yamlValue →
      s.Denotes t v) : Denotes t v := by
  rcases readLine_cases h with ⟨hnone, _⟩ | ⟨s, m, hline, hblock, hsome⟩
  · exact absurd hnone.symm (Option.some_ne_none _).symm
  · simp only [Option.some.injEq, Prod.mk.injEq] at hsome
    obtain ⟨rfl, rfl, rfl⟩ := hsome
    rw [List.take_length] at hblock
    have hsplit : ([newline].intercalate (line :: lines)).splitOn newline = line :: lines :=
      List.splitOn_intercalate newline hnewline (List.cons_ne_nil _ _)
    have hparse : parseFrontmatterYaml ([newline].intercalate (line :: lines)) [] 1 =
        .ok [s.entry] := by
      rw [parseFrontmatterYaml, hsplit, parseLines, h]
      dsimp only
      rw [setKey, List.map_nil, if_neg (Bool.eq_false_iff.mp List.contains_nil)]
      dsimp only
      rw [parseLines_skip, List.drop_length, parseLines]
      rfl
    have hreads : Reads (line :: lines) [s] := by
      have := Reads.entry s .nil
      rwa [hline, hblock, List.append_nil] at this
    have hreadsAs : ReadsAs (([newline].intercalate (line :: lines)).splitOn newline) [s.entry]
        [s] := by
      rw [hsplit]
      exact ⟨hreads, rfl, List.nodup_singleton _, fun s _ entries ↦ Section.fields_nodup⟩
    exact ⟨_, [], 1, _, [s], hparse, hreadsAs, s, List.mem_singleton_self s,
      hdenotes s hline hblock rfl⟩

/-- `k: `, and a text. -/
def keyLine (t : Text) : Text := 0x6B :: colon :: space :: t

/-- `  - `, and a text. -/
def itemLine (t : Text) : Text := space :: space :: hyphen :: space :: t

theorem isBlank_keyLine (t : Text) : isBlank (keyLine t) = false := by
  rw [isBlank, keyLine, trim_cons (by decide)]
  rfl

theorem isComment_keyLine (t : Text) : isComment (keyLine t) = false := by
  rw [isComment, keyLine, trim_cons (by decide)]
  rfl

theorem keyOf_keyLine (t : Text) : keyOf (keyLine t) = [0x6B] := by
  rw [keyOf, keyLine, List.takeWhile_cons_of_pos (by decide),
    List.takeWhile_cons_of_neg (by decide)]
  decide

theorem restOf_keyLine (t : Text) : restOf (keyLine t) = space :: t := by
  rw [restOf, keyLine, List.dropWhile_cons_of_pos (by decide),
    List.dropWhile_cons_of_neg (by decide), List.tail_cons]

theorem tab_notMem_keyLine (h : tab ∉ t) : tab ∉ keyLine t := by
  simp only [keyLine, List.mem_cons, not_or]
  exact ⟨by decide, by decide, by decide, h⟩

theorem newline_notMem_keyLine (h : newline ∉ t) : newline ∉ keyLine t := by
  simp only [keyLine, List.mem_cons, not_or]
  exact ⟨by decide, by decide, by decide, h⟩

theorem newline_notMem_itemLine (h : newline ∉ t) : newline ∉ itemLine t := by
  simp only [itemLine, List.mem_cons, not_or]
  exact ⟨by decide, by decide, by decide, by decide, h⟩

/-- A line with a key, up to where its value is looked at. -/
theorem readLine_keyLine (htab : tab ∉ t) (lines : List Text)
    (hplain : (inlineValue (space :: t)).head? ≠ some bracket) :
    readLine [] 1 (keyLine t) lines =
      if inlineValue (space :: t) ≠ [] then
        .ok (some ([0x6B], .string (unquote (inlineValue (space :: t))), 0))
      else (collectBlock [] [0x6B] 2 lines).bind fun r ↦
        (readBlock [] 1 [0x6B] r.1).map fun value ↦ some ([0x6B], value, r.2) := by
  have htab : (keyLine t).contains tab = false := by
    rw [← Bool.not_eq_true, List.contains_iff_mem]
    exact tab_notMem_keyLine htab
  have hcolon : (keyLine t).contains colon = true :=
    List.contains_iff_mem.mpr (List.mem_cons_of_mem _ List.mem_cons_self)
  have hindented : isIndented (keyLine t) = false := rfl
  rw [readLine]
  dsimp only
  rw [htab, if_neg Bool.false_ne_true, isBlank_keyLine, isComment_keyLine, if_neg (by decide),
    hindented, if_neg Bool.false_ne_true, hcolon, if_neg (by decide), keyOf_keyLine,
    restOf_keyLine, if_neg (by decide), if_neg hplain]

theorem trim_itemLine (hscalar : IsScalar t) : trim (itemLine t) = hyphen :: space :: t := by
  have hend : trimEnd t = t := by
    have hidem : trimEnd (trim t) = trim t := List.rdropWhile_idempotent _ _
    rwa [hscalar.trim_eq] at hidem
  have hlast := List.rdropWhile_eq_self_iff.mp hend hscalar.ne_nil
  rw [itemLine, trim_cons_space (by decide), trim_cons_space (by decide),
    ← List.dropLast_append_getLast hscalar.ne_nil, ← List.cons_append]
  exact trim_between (by decide) (Bool.not_eq_true _ ▸ hlast)

theorem itemOf_itemLine (hscalar : IsScalar t) : itemOf (itemLine t) = t := by
  rw [itemOf, trim_itemLine hscalar]
  rfl

/-- A key whose line has no value, with one item below it. -/
theorem readLine_item (htab : tab ∉ t) (hempty : inlineValue (space :: t) = [])
    (hscalar : IsScalar value) : readLine [] 1 (keyLine t) [itemLine value] =
      .ok (some ([0x6B], .list [unquote value], 1)) := by
  have hblank : isBlank (itemLine value) = false := by
    rw [isBlank, trim_itemLine hscalar]
    rfl
  have hindented : isIndented (itemLine value) = true := rfl
  have htab' : (itemLine value).contains tab = false := by
    rw [← Bool.not_eq_true, List.contains_iff_mem]
    simp only [itemLine, List.mem_cons, not_or]
    exact ⟨by decide, by decide, by decide, by decide, hscalar.tab_notMem⟩
  have hcollect : collectBlock [] [0x6B] 2 [itemLine value] = .ok ([itemLine value], 1) := by
    rw [collectBlock, hblank, hindented, htab', if_neg Bool.false_ne_true, if_neg (by decide),
      if_neg Bool.false_ne_true]
    rfl
  have hmark : itemMark <+: trim (itemLine value) := ⟨value, (trim_itemLine hscalar).symm⟩
  rw [readLine_keyLine htab _ (by rw [hempty]; exact (Option.some_ne_none _).symm), hempty,
    if_neg (not_not.mpr rfl), hcollect]
  change (readBlock [] 1 [0x6B] [itemLine value]).map _ = _
  rw [readBlock, if_pos hmark, readItems]
  dsimp only
  rw [if_neg (not_not.mpr hmark), ← itemOf, itemOf_itemLine hscalar]
  rfl

/-- In a block list a text is read without its quotes. -/
theorem denotes_item (hscalar : IsScalar t) : Denotes t (some (unquote t)) := by
  refine denotes_of_readLine (keyLine []) [itemLine t] ?_
    (readLine_item List.not_mem_nil rfl hscalar) fun s hline hblock hvalue ↦ ?_
  · rw [List.forall_mem_cons, List.forall_mem_singleton]
    exact ⟨newline_notMem_keyLine List.not_mem_nil, newline_notMem_itemLine hscalar.newline_notMem⟩
  · have hblank : isBlank (itemLine t) = false := by
      rw [isBlank, trim_itemLine hscalar]
      rfl
    have hcontent : s.content = [itemLine t] := by
      rw [Section.content, hblock, List.filter_cons_of_pos (by simp [hblank]), List.filter_nil]
    exact .item (i := 0) (by rw [hcontent]; rfl)
      ((congrArg trim (itemOf_itemLine hscalar)).trans hscalar.trim_eq) hvalue rfl

/-- A text that begins as a comment is left out after its key. -/
theorem denotes_comment (hscalar : IsScalar (hash :: us)) : Denotes (hash :: us) none := by
  have hempty : inlineValue (space :: hash :: us) = [] := by
    rw [inlineValue, trim_cons_space (by decide), hscalar.trim_eq,
      List.head?_cons, Option.any_some, if_neg (by decide), beforeComment, if_pos ⟨rfl, rfl⟩]
    rfl
  have hitem : IsScalar [0x61] := ⟨by decide, by decide, by decide, by decide, by decide⟩
  refine denotes_of_readLine (keyLine (hash :: us)) [itemLine [0x61]] ?_
    (readLine_item hscalar.tab_notMem hempty hitem) fun s hline hblock hvalue ↦ ?_
  · rw [List.forall_mem_cons, List.forall_mem_singleton]
    exact ⟨newline_notMem_keyLine hscalar.newline_notMem, by decide⟩
  · have hrest : s.rest = space :: hash :: us := by rw [Section.rest, hline, restOf_keyLine]
    refine .comment ?_ (hrest ▸ hempty)
    rw [hrest, trim_cons_space (by decide), hscalar.trim_eq]

/-- After a key a text is read up to its comment. -/
theorem denotes_inline (hscalar : IsScalar t) (hne : inlineValue (space :: t) ≠ [])
    (hplain : (inlineValue (space :: t)).head? ≠ some bracket) :
    Denotes t (some (unquote (inlineValue (space :: t)))) := by
  refine denotes_of_readLine (keyLine t) [] ?_
    ((readLine_keyLine hscalar.tab_notMem [] hplain).trans (if_pos hne)) fun s hline _ hvalue ↦ ?_
  · rw [List.forall_mem_singleton]
    exact newline_notMem_keyLine hscalar.newline_notMem
  · refine .inline ?_ hvalue
    rw [Section.rest, hline, restOf_keyLine, trim_cons_space (by decide), hscalar.trim_eq]

/-- A pair of quotes with nothing between them is left out of a flow list. -/
theorem denotes_piece (hread : readLine [] 1 (keyLine (bracket :: (t ++ [closingBracket]))) [] =
      .ok (some ([0x6B], .list [], 0))) (hnewline : newline ∉ t)
    (hpieces : flowPieces (inlineValue (space :: bracket :: (t ++ [closingBracket]))) = [t])
    (hopen : (inlineValue (space :: bracket :: (t ++ [closingBracket]))).head? = some bracket)
    (htrim : trim t = t) : Denotes t none := by
  refine denotes_of_readLine _ [] ?_ hread fun s hline _ hvalue ↦ ?_
  · rw [List.forall_mem_singleton]
    refine newline_notMem_keyLine ?_
    simp only [List.mem_cons, List.mem_append, List.not_mem_nil, not_or]
    exact ⟨by decide, hnewline, by decide, not_false⟩
  · have hrest : s.rest = space :: bracket :: (t ++ [closingBracket]) := by
      rw [Section.rest, hline, restOf_keyLine]
    exact @Section.Denotes.piece s t [] [] [] t none (hrest ▸ hopen) hvalue (hrest ▸ hpieces) htrim
      rfl

/-! ### What is cut from a text -/

theorem length_beforeComment_lt (h : commentMark <:+: t) :
    (beforeComment t).length < t.length := by
  induction t with
  | nil => exact absurd (List.infix_nil.mp h) (List.cons_ne_nil _ _)
  | cons a t ih =>
    rcases t with - | ⟨b, t⟩
    · exact absurd h.length_le (Nat.not_succ_le_self 1)
    · rw [beforeComment]
      split_ifs with hmark
      · exact Nat.succ_pos _
      · refine Nat.succ_lt_succ (ih ?_)
        refine (List.infix_cons_iff.mp h).resolve_left fun hprefix ↦ hmark ?_
        obtain ⟨ha, hb⟩ := eq_of_commentMark_le hprefix
        exact ⟨ha, Option.some.inj hb⟩

theorem beforeComment_cons (h : u ≠ space) (us : Text) :
    beforeComment (u :: us) = u :: beforeComment us := by
  rcases us with - | ⟨v, us⟩
  · rfl
  · rw [beforeComment, if_neg fun hmark ↦ h hmark.1]

theorem isSpace_head (hscalar : IsScalar (u :: us)) : isSpace u = false := by
  by_contra hspace
  rw [Bool.not_eq_false] at hspace
  have htrim := hscalar.trim_eq
  rw [trim_cons_space hspace] at htrim
  have hle : (trim us).length ≤ us.length :=
    (List.rdropWhile_prefix _ _).length_le.trans (List.length_dropWhile_le _ _)
  rw [htrim, List.length_cons] at hle
  exact absurd hle (Nat.not_succ_le_self _)

/-- What is left after a key of a text without a quote or a comment at its start. -/
theorem inlineValue_cons (hscalar : IsScalar (u :: us)) (hquote : isQuote u = false)
    (hhash : u ≠ hash) :
    inlineValue (space :: u :: us) = u :: trimEnd (beforeComment us) := by
  have hspace := isSpace_head hscalar
  have hne : u ≠ space := by
    rintro rfl
    exact absurd hspace (by decide)
  rw [inlineValue, trim_cons_space (by decide), hscalar.trim_eq, List.head?_cons, Option.any_some,
    hquote, if_neg Bool.false_ne_true, beforeComment, if_neg fun hmark ↦ hhash hmark.2,
    beforeComment_cons hne, trim_cons_space (by decide), trim_cons hspace]

theorem trimEnd_trimEnd (t : Text) : trimEnd (trimEnd t) = trimEnd t :=
  List.rdropWhile_idempotent _ _

/-- A text that does not begin with a quote is read as it is. -/
theorem unquote_of_not_isQuote (hspace : isSpace u = false) (hquote : isQuote u = false)
    (htrim : trimEnd us = us) : unquote (u :: us) = u :: us := by
  rw [isQuote, decide_eq_false_iff_not, not_or] at hquote
  exact Memory.unquote_plain ((trim_cons hspace).trans (congrArg _ htrim)) hquote.1 hquote.2

/-- A text with a comment is read in two ways: after a key, the comment is taken from it. -/
theorem exists_denotes_ne (hscalar : IsScalar t) (hquote : t.head?.any isQuote = false)
    (hmark : commentMark <:+: space :: t) : ∃ v, Denotes t v ∧ v ≠ some (unquote t) := by
  rcases t with - | ⟨u, us⟩
  · exact absurd rfl hscalar.ne_nil
  · rw [List.head?_cons, Option.any_some] at hquote
    by_cases hhash : u = hash
    · subst hhash
      exact ⟨none, denotes_comment hscalar, (Option.some_ne_none _).symm⟩
    · have hspace := isSpace_head hscalar
      have hvalue := inlineValue_cons hscalar hquote hhash
      have hbracket : u ≠ bracket := by
        rintro rfl
        have hplain := hscalar.plain
        rw [isPlainOutside, if_neg (by decide), Bool.and_eq_true] at hplain
        exact absurd hplain.1 (by decide)
      refine ⟨_, denotes_inline hscalar (hvalue ▸ List.cons_ne_nil _ _)
        (hvalue ▸ fun h ↦ hbracket (Option.some.inj h)), fun heq ↦ ?_⟩
      have htrim := hscalar.trim_eq
      rw [trim_cons hspace, List.cons.injEq] at htrim
      rw [hvalue, unquote_of_not_isQuote hspace hquote (trimEnd_trimEnd _),
        unquote_of_not_isQuote hspace hquote htrim.2, Option.some.injEq, List.cons.injEq] at heq
      -- the comment begins in what follows the first unit, so that something is cut
      have hinfix : commentMark <:+: us := by
        have htail := (List.infix_cons_iff.mp hmark).resolve_left fun hprefix ↦
          hhash (Option.some.inj (eq_of_commentMark_le hprefix).2)
        refine (List.infix_cons_iff.mp htail).resolve_left fun hprefix ↦ ?_
        rw [(eq_of_commentMark_le hprefix).1] at hspace
        exact absurd hspace (by decide)
      have hlt := length_beforeComment_lt hinfix
      have hle : (trimEnd (beforeComment us)).length ≤ (beforeComment us).length :=
        (List.rdropWhile_prefix _ _).length_le
      rw [heq.2] at hle
      exact absurd hlt (not_lt.mpr hle)

/-- **Which texts have one value.** Those in which no comment begins, and which are no pair of
quotes with nothing between them. -/
theorem forall_denotes_eq_iff (hscalar : IsScalar t) :
    (∀ v w, Denotes t v → Denotes t w → v = w) ↔ IsSafe t := by
  constructor
  · intro hone
    have hitem := denotes_item hscalar
    refine ⟨?_, ?_, ?_⟩
    · by_contra hunsafe
      rw [not_or, not_not, Bool.not_eq_true] at hunsafe
      obtain ⟨v, hv, hne⟩ := exists_denotes_ne hscalar hunsafe.1 hunsafe.2
      exact hne (hone _ _ hv hitem)
    · rintro rfl
      exact absurd (hone _ _ (denotes_piece rfl (by decide) rfl rfl rfl) hitem)
        (Option.some_ne_none _).symm
    · rintro rfl
      exact absurd (hone _ _ (denotes_piece rfl (by decide) rfl rfl rfl) hitem)
        (Option.some_ne_none _).symm
  · rintro hsafe v w ⟨_, _, _, _, _, _, _, s, _, hv⟩ ⟨_, _, _, _, _, _, _, s', _, hw⟩
    rw [hv.eq_unquote hscalar hsafe, hw.eq_unquote hscalar hsafe]

end Documents

/-! ## Blocks and scalars -/

/-- **What is uniform in accepted texts.** Every line is read once and no key twice. The lines of
every block have one indentation if and only if the text is evenly indented, and a text has one
value, wherever it stands, if and only if it is safe. -/
theorem uniform_iff (yaml file : Text) (firstLine : ℕ) (t : Text) :
    (∀ out, parseFrontmatterYaml yaml file firstLine = .ok out →
      (∃ sections, ReadsAs (yaml.splitOn newline) out sections) ∧
        ∀ sections, ReadsAs (yaml.splitOn newline) out sections →
          ((∀ s ∈ sections, s.IsEven) ↔ EvenlyIndented (yaml.splitOn newline))) ∧
      (IsScalar t → ((∀ v w, Denotes t v → Denotes t w → v = w) ↔ IsSafe t)) :=
  ⟨fun _ h ↦ ⟨exists_readsAs h, fun _ hreads ↦ hreads.reads.isEven_iff⟩, forall_denotes_eq_iff⟩

def nested : Text := ofString "hooks:\n  a: 1\n      b: 2"

def commented : Text := ofString "a # b"

/-- A block whose second line is indented more is accepted, and a text with a comment has two
values: `k: a # b` is read without the comment, and `- a # b` with it. -/
theorem not_uniform :
    (∃ out sections, parseFrontmatterYaml nested [] 1 = .ok out ∧
      ReadsAs (nested.splitOn newline) out sections ∧ ¬ ∀ s ∈ sections, s.IsEven) ∧
    IsScalar commented ∧ ¬ ∀ v w, Denotes commented v → Denotes commented w → v = w := by
  have hscalar : IsScalar commented :=
    ⟨by decide, by decide, by decide, by decide, by decide⟩
  have hparse : parseFrontmatterYaml nested [] 1 = .ok [(ofString "hooks",
      .mapping [(ofString "a", ofString "1"), (ofString "b", ofString "2")])] := by decide +kernel
  obtain ⟨sections, hsections⟩ := exists_readsAs hparse
  refine ⟨⟨_, sections, hparse, hsections, ?_⟩, hscalar, ?_⟩
  · rw [hsections.reads.isEven_iff]
    decide +kernel
  · rw [forall_denotes_eq_iff hscalar]
    rintro ⟨hmark, -⟩
    exact hmark.elim (by decide) fun h ↦ h ⟨[space, 0x61], [space, 0x62], by decide⟩

end QwenHarness.Skills
