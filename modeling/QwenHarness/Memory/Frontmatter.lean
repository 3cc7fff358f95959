import QwenHarness.Codec.Utf16
import Mathlib.Logic.Basic

/-!
# Memory documents

A memory is a document with a frontmatter of three scalars and a body. The frontmatter is data: what
does not satisfy the schema is an error that names the line, and a name is a slug, so that it cannot
name a file outside the directory. What is written is read back: `parseMemory_serializeMemory`.
-/

namespace QwenHarness.Memory

open Utf16

/-! ## The schema -/

inductive MemoryType
  | user
  | feedback
  | project
  | reference
deriving DecidableEq, Repr

namespace MemoryType

def text : MemoryType → Text
  | user => ofString "user"
  | feedback => ofString "feedback"
  | project => ofString "project"
  | reference => ofString "reference"

def ofText (t : Text) : Option MemoryType :=
  [user, feedback, project, reference].find? fun type ↦ type.text = t

end MemoryType

def newline : CodeUnit := 0x0A
def carriageReturn : CodeUnit := 0x0D
def space : CodeUnit := 0x20
def doubleQuote : CodeUnit := 0x22
def hash : CodeUnit := 0x23
def singleQuote : CodeUnit := 0x27
def hyphen : CodeUnit := 0x2D
def colon : CodeUnit := 0x3A
def bracket : CodeUnit := 0x5B
def backslash : CodeUnit := 0x5C
def brace : CodeUnit := 0x7B

def isDigit (u : CodeUnit) : Bool := decide (0x30 ≤ u.val ∧ u.val ≤ 0x39)
def isLower (u : CodeUnit) : Bool := decide (0x61 ≤ u.val ∧ u.val ≤ 0x7A)
def isUpper (u : CodeUnit) : Bool := decide (0x41 ≤ u.val ∧ u.val ≤ 0x5A)

/-- `MEMORY_NAME_RE`: runs of lowercase letters and digits with single hyphens between them. -/
def isSlug (name : Text) : Bool :=
  (name.splitOn hyphen).all fun part ↦ !part.isEmpty && part.all fun u ↦ isLower u || isDigit u

/-- `MemoryNameSchema`. -/
def isMemoryName (name : Text) : Bool :=
  decide (1 ≤ name.length ∧ name.length ≤ 128) && isSlug name

/-- A line of its own: a description that spanned lines would corrupt the frontmatter. -/
def isDescription (description : Text) : Bool :=
  decide (1 ≤ description.length ∧ description.length ≤ 500) &&
    !description.any fun u ↦ u = newline || u = carriageReturn

/-- What satisfies `MemoryFrontmatterSchema`. -/
structure MemoryFrontmatter where
  name : Text
  description : Text
  type : MemoryType
  name_ok : isMemoryName name = true
  description_ok : isDescription description = true
deriving DecidableEq

set_option linter.dupNamespace false in
/-- A memory document. -/
structure Memory extends MemoryFrontmatter where
  body : Text
deriving DecidableEq

/-- `MemoryFrontmatterSchema.safeParse`. -/
def safeParse (name description type : Text) : Option MemoryFrontmatter :=
  match MemoryType.ofText type with
  | none => none
  | some type =>
    if hname : isMemoryName name = true then
      if hdescription : isDescription description = true then
        some ⟨name, description, type, hname, hdescription⟩
      else none
    else none

/-! ## Parsing -/

/-- What is wrong with a document, and in which line. -/
inductive FormatError
  | missingFrontmatter (line : ℕ)
  | unterminatedFrontmatter (line : ℕ)
  | notKeyValue (line : ℕ) (text : Text)
  | invalidKey (line : ℕ) (key : Text)
  | duplicateKey (line : ℕ) (key : Text)
  | schema
deriving DecidableEq

def frontmatterDelimiter : Text := [hyphen, hyphen, hyphen]

/-- A byte order mark at the front. -/
def stripMark : Text → Text
  | [] => []
  | u :: us => if u = 0xFEFF then us else u :: us

def isBlank (line : Text) : Bool := decide (trim line = [])

def isFence (line : Text) : Bool := decide (trim line = frontmatterDelimiter)

def isInside (line : Text) : Bool := !isFence line

/-- Split a document into its raw frontmatter block and its body. -/
def splitDocument (text : Text) : Except FormatError (Text × Text) :=
  let lines := (stripMark text).splitOn newline
  let blanks := lines.takeWhile isBlank
  match lines.dropWhile isBlank with
  | [] => .error (.missingFrontmatter (blanks.length + 1))
  | first :: rest =>
    if isFence first = false then .error (.missingFrontmatter (blanks.length + 1))
    else
      match rest.dropWhile isInside with
      | [] => .error (.unterminatedFrontmatter (blanks.length + 1))
      | _ :: bodyLines =>
        .ok ([newline].intercalate (rest.takeWhile isInside), [newline].intercalate bodyLines)

/-- `value.replace(/\\(["\\])/g, '$1')`. -/
def unescape : Text → Text
  | [] => []
  | [u] => [u]
  | u :: v :: us =>
    if u = backslash ∧ (v = doubleQuote ∨ v = backslash) then v :: unescape us
    else u :: unescape (v :: us)

/-- `value.replace(/''/g, "'")`. -/
def undouble : Text → Text
  | [] => []
  | [u] => [u]
  | u :: v :: us =>
    if u = singleQuote ∧ v = singleQuote then u :: undouble us else u :: undouble (v :: us)

/-- Strip one layer of matching quotes. -/
def unquote (raw : Text) : Text :=
  let value := trim raw
  match value with
  | [] => []
  | [u] => [u]
  | first :: v :: us =>
    let inner := (v :: us).dropLast
    if first = doubleQuote ∧ (v :: us).getLast? = some doubleQuote then unescape inner
    else if first = singleQuote ∧ (v :: us).getLast? = some singleQuote then undouble inner
    else value

/-- What stands before the first ` #`. -/
def beforeComment : Text → Text
  | [] => []
  | [u] => [u]
  | u :: v :: us => if u = space ∧ v = hash then [] else u :: beforeComment (v :: us)

def isKey : Text → Bool
  | [] => false
  | u :: us =>
    (isLower u || isUpper u) &&
      us.all fun v ↦ isLower v || isUpper v || isDigit v || v = 0x5F || v = hyphen

/-- The value of a line, from what follows its colon. A `#` inside quotes is literal. -/
def lineValue (rest : Text) : Text :=
  match trim rest with
  | u :: _ =>
    if u = doubleQuote ∨ u = singleQuote then unquote rest else unquote (beforeComment rest)
  | [] => unquote (beforeComment rest)

/-- The lines of the block from line `n` on, with what has been read before them. -/
def parseLines (n : ℕ) :
    List Text → List (Text × Text) → Except FormatError (List (Text × Text))
  | [], out => .ok out
  | rawLine :: lines, out =>
    let line := trim rawLine
    if line = [] ∨ line.head? = some hash then parseLines (n + 1) lines out
    else if colon ∉ rawLine then .error (.notKeyValue n line)
    else
      let key := trim (rawLine.takeWhile (· ≠ colon))
      if isKey key = false then .error (.invalidKey n key)
      else if key ∈ out.map Prod.fst then .error (.duplicateKey n key)
      else
        parseLines (n + 1) lines
          (out ++ [(key, lineValue (rawLine.dropWhile (· ≠ colon)).tail)])

/-- Parse the small subset: `key: value` lines, blank lines and comments. -/
def parseFrontmatterYaml (yaml : Text) : Except FormatError (List (Text × Text)) :=
  parseLines 1 (yaml.splitOn newline) []

def nameKey : Text := ofString "name"
def descriptionKey : Text := ofString "description"
def typeKey : Text := ofString "type"

/-- The schema on what was read: a strict object of three strings. -/
def parseFields (out : List (Text × Text)) : Option MemoryFrontmatter :=
  if out.all fun entry ↦ [nameKey, descriptionKey, typeKey].contains entry.1 then
    match out.lookup nameKey, out.lookup descriptionKey, out.lookup typeKey with
    | some name, some description, some type => safeParse name description type
    | _, _, _ => none
  else none

/-- `body.replace(/\n+$/, '')`. -/
def stripNewlines (body : Text) : Text := body.rdropWhile (· = newline)

/-- Parse a memory document into a validated memory. -/
def parseMemory (text : Text) : Except FormatError Memory := do
  let (yaml, body) ← splitDocument text
  let raw ← parseFrontmatterYaml yaml
  match parseFields raw with
  | none => .error .schema
  | some frontmatter => .ok { frontmatter with body := stripNewlines body }

/-! ## Serializing -/

/-- Does a value need quotes to be read back? -/
def needsQuoting (value : Text) : Bool :=
  value.isEmpty || decide (value ≠ trim value) ||
    value.any (fun u ↦ u = colon || u = hash || u = singleQuote || u = doubleQuote) ||
    [hyphen, space].isPrefixOf value || [bracket].isPrefixOf value || [brace].isPrefixOf value

/-- `value.replace(/\\/g, '\\\\').replace(/"/g, '\\"')`. -/
def escape (value : Text) : Text :=
  (value.flatMap fun u ↦ if u = backslash then [backslash, backslash] else [u]).flatMap
    fun u ↦ if u = doubleQuote then [backslash, doubleQuote] else [u]

def quote (value : Text) : Text :=
  if needsQuoting value then doubleQuote :: (escape value ++ [doubleQuote]) else value

/-- Serialize a memory. Its frontmatter has satisfied the schema. -/
def serializeMemory (m : Memory) : Text :=
  let lines := [frontmatterDelimiter,
    nameKey ++ [colon, space] ++ quote m.name,
    descriptionKey ++ [colon, space] ++ quote m.description,
    typeKey ++ [colon, space] ++ m.type.text,
    frontmatterDelimiter,
    []]
  let body := stripNewlines m.body
  [newline].intercalate lines ++ body ++ if body = [] then [] else [newline]

/-! ## What is written is read back -/

section RoundTrip

variable {v q : Text} {u : CodeUnit}

theorem escape_cons (u : CodeUnit) (us : Text) : escape (u :: us) =
    (if u = backslash ∨ u = doubleQuote then [backslash, u] else [u]) ++ escape us := by
  rw [escape, List.flatMap_cons, List.flatMap_append, ← escape]
  refine congrArg (· ++ escape us) ?_
  by_cases hb : u = backslash
  · subst hb
    rw [if_pos rfl, if_pos (.inl rfl)]
    decide
  · rw [if_neg hb, List.flatMap_singleton]
    by_cases hd : u = doubleQuote
    · subst hd
      rw [if_pos rfl, if_pos (.inr rfl)]
    · rw [if_neg hd, if_neg (by rintro (h | h); exacts [hb h, hd h])]

theorem unescape_escape (v : Text) : unescape (escape v) = v := by
  induction v with
  | nil => rfl
  | cons u us ih =>
    rw [escape_cons]
    by_cases hu : u = backslash ∨ u = doubleQuote
    · rw [if_pos hu]
      change unescape (backslash :: u :: escape us) = _
      rw [unescape, if_pos ⟨rfl, hu.symm⟩, ih]
    · rw [if_neg hu, List.singleton_append]
      rcases hw : escape us with - | ⟨w, ws⟩
      · rw [hw, unescape] at ih
        rw [unescape, ← ih]
      · rw [unescape, if_neg fun h ↦ hu (.inl h.1), ← hw, ih]

/-- A value between double quotes. -/
theorem unquote_doubleQuote {raw : Text} (h : trim raw = doubleQuote :: (q ++ [doubleQuote])) :
    unquote raw = unescape q := by
  rw [unquote, h]
  rcases hq : q ++ [doubleQuote] with - | ⟨v, us⟩
  · exact absurd hq (by simp)
  · have hlast : (v :: us).getLast? = some doubleQuote := by rw [← hq, List.getLast?_concat]
    have hinner : (v :: us).dropLast = q := by rw [← hq, List.dropLast_concat]
    change (if doubleQuote = doubleQuote ∧ (v :: us).getLast? = some doubleQuote
      then unescape (v :: us).dropLast else _) = _
    rw [if_pos ⟨rfl, hlast⟩, hinner]

/-- A value that does not begin with a quote. -/
theorem unquote_plain {raw us : Text} (h : trim raw = u :: us) (hd : u ≠ doubleQuote)
    (hs : u ≠ singleQuote) : unquote raw = u :: us := by
  rw [unquote, h]
  rcases us with - | ⟨v, us⟩
  · rfl
  · change (if u = doubleQuote ∧ _ then _ else if u = singleQuote ∧ _ then _ else _) = _
    rw [if_neg fun h ↦ hd h.1, if_neg fun h ↦ hs h.1]

theorem beforeComment_eq_self (h : hash ∉ v) : beforeComment v = v := by
  induction v with
  | nil => rfl
  | cons u us ih =>
    rcases us with - | ⟨w, us⟩
    · rfl
    · rw [beforeComment, if_neg, ih (List.not_mem_of_not_mem_cons h)]
      rintro ⟨-, rfl⟩
      exact h (List.mem_cons_of_mem _ List.mem_cons_self)

/-- What a value without quotes is like. -/
theorem plain_of_needsQuoting (h : needsQuoting v = false) :
    v ≠ [] ∧ trim v = v ∧ ∀ u ∈ v, u ≠ colon ∧ u ≠ hash ∧ u ≠ singleQuote ∧ u ≠ doubleQuote := by
  simp only [needsQuoting, Bool.or_eq_false_iff, List.isEmpty_eq_false_iff, decide_eq_false_iff_not,
    not_not, List.any_eq_false] at h
  obtain ⟨⟨⟨⟨⟨hne, htrim⟩, hany⟩, -⟩, -⟩, -⟩ := h
  refine ⟨hne, htrim.symm, fun u hu ↦ ?_⟩
  have := hany u hu
  simp only [Bool.or_eq_true, decide_eq_true_eq, not_or] at this
  obtain ⟨⟨⟨hc, hh⟩, hs⟩, hd⟩ := this
  exact ⟨hc, hh, hs, hd⟩

theorem lineValue_plain (h : needsQuoting v = false) : lineValue (space :: v) = v := by
  obtain ⟨hne, htrim, hplain⟩ := plain_of_needsQuoting h
  have htrim : trim (space :: v) = v := (trim_cons_space (by decide)).trans htrim
  have hhash : hash ∉ space :: v := by
    rw [List.mem_cons, not_or]
    exact ⟨by decide, fun hmem ↦ (hplain _ hmem).2.1 rfl⟩
  rcases v with - | ⟨u, us⟩
  · exact absurd rfl hne
  · obtain ⟨-, -, hs, hd⟩ := hplain u List.mem_cons_self
    rw [lineValue, htrim]
    change (if u = doubleQuote ∨ u = singleQuote then _ else _) = _
    rw [if_neg (by rintro (h | h); exacts [hd h, hs h]), beforeComment_eq_self hhash,
      unquote_plain htrim hd hs]

theorem lineValue_quote (v : Text) : lineValue (space :: quote v) = v := by
  cases hneeds : needsQuoting v with
  | false => rw [quote, hneeds, if_neg Bool.false_ne_true, lineValue_plain hneeds]
  | true =>
    rw [quote, hneeds, if_pos rfl]
    have htrim (q : Text) : trim (space :: doubleQuote :: (q ++ [doubleQuote])) =
        doubleQuote :: (q ++ [doubleQuote]) := by
      rw [trim_cons_space (by decide), trim_between] <;> decide
    rw [lineValue, htrim]
    change (if doubleQuote = doubleQuote ∨ _ then _ else _) = _
    rw [if_pos (.inl rfl), unquote_doubleQuote (htrim _), unescape_escape]

/-- What is needed of a key for its line to be read. -/
structure IsPlainKey (key : Text) : Prop where
  isKey : isKey key = true
  no_colon : colon ∉ key
  no_newline : newline ∉ key
  trim_line : ∀ rest, ∃ us, trim (key ++ rest) = key.headD 0 :: us
  trim_key : trim key = key
  head_ne : key.headD 0 ≠ hash ∧ key.headD 0 ≠ hyphen

theorem isPlainKey_of_cons {us : Text} (hu : isSpace u = false)
    (h : isKey (u :: us) = true ∧ colon ∉ u :: us ∧ newline ∉ u :: us ∧ trim (u :: us) = u :: us ∧
      u ≠ hash ∧ u ≠ hyphen) : IsPlainKey (u :: us) where
  isKey := h.1
  no_colon := h.2.1
  no_newline := h.2.2.1
  trim_line rest := ⟨trimEnd (us ++ rest), by rw [List.cons_append, trim_cons hu]; rfl⟩
  trim_key := h.2.2.2.1
  head_ne := h.2.2.2.2

theorem isPlainKey_name : IsPlainKey nameKey :=
  isPlainKey_of_cons (by decide) (by decide)

theorem isPlainKey_description : IsPlainKey descriptionKey :=
  isPlainKey_of_cons (by decide) (by decide)

theorem isPlainKey_type : IsPlainKey typeKey :=
  isPlainKey_of_cons (by decide) (by decide)

/-- A line of the frontmatter is not a fence. -/
theorem IsPlainKey.isInside {key : Text} (hk : IsPlainKey key) (rest : Text) :
    isInside (key ++ rest) = true := by
  obtain ⟨us, htrim⟩ := hk.trim_line rest
  rw [Memory.isInside, isFence, htrim, Bool.not_eq_true', decide_eq_false_iff_not]
  exact fun h ↦ hk.head_ne.2 (List.cons.inj h).1

/-- **A line is read** with what was read before it. -/
theorem parseLines_line {key v : Text} {n : ℕ} {lines : List Text} {out : List (Text × Text)}
    (hk : IsPlainKey key) (hnew : key ∉ out.map Prod.fst) :
    parseLines n ((key ++ colon :: v) :: lines) out =
      parseLines (n + 1) lines (out ++ [(key, lineValue v)]) := by
  obtain ⟨us, htrim⟩ := hk.trim_line (colon :: v)
  have hall : ∀ u ∈ key, decide (u ≠ colon) = true := fun u hu ↦
    decide_eq_true fun h ↦ hk.no_colon (h ▸ hu)
  have hstop : ¬ decide (colon ≠ colon) = true := by decide
  have htake : (key ++ colon :: v).takeWhile (· ≠ colon) = key := by
    rw [List.takeWhile_append_of_pos hall,
      List.takeWhile_cons_of_neg (p := (· ≠ colon)) hstop, List.append_nil]
  have hdrop : (key ++ colon :: v).dropWhile (· ≠ colon) = colon :: v := by
    rw [List.dropWhile_append_of_pos hall,
      List.dropWhile_cons_of_neg (p := (· ≠ colon)) hstop]
  have hblank : ¬ (key.headD 0 :: us = [] ∨ (key.headD 0 :: us).head? = some hash) := by
    rintro (h | h)
    · cases h
    · exact hk.head_ne.1 (Option.some.inj h)
  have hcolon : ¬ colon ∉ key ++ colon :: v :=
    not_not.mpr (List.mem_append_right _ List.mem_cons_self)
  rw [parseLines]
  dsimp only
  rw [htrim, if_neg hblank, if_neg hcolon, htake, hdrop, hk.trim_key, hk.isKey,
    if_neg (by decide), if_neg hnew, List.tail_cons]

theorem newline_not_mem_escape (h : newline ∉ v) : newline ∉ escape v := by
  induction v with
  | nil => exact List.not_mem_nil
  | cons u us ih =>
    rw [List.mem_cons, not_or] at h
    rw [escape_cons, List.mem_append, not_or]
    refine ⟨?_, ih h.2⟩
    split <;> simp [h.1, (by decide : newline ≠ backslash)]

theorem newline_not_mem_quote (h : newline ∉ v) : newline ∉ quote v := by
  rw [quote]
  split
  · simp [newline_not_mem_escape h, (by decide : newline ≠ doubleQuote)]
  · exact h

theorem MemoryFrontmatter.newline_not_mem_description (f : MemoryFrontmatter) :
    newline ∉ f.description := by
  intro hmem
  have h := f.description_ok
  rw [isDescription, Bool.and_eq_true, Bool.not_eq_true', List.any_eq_false] at h
  exact h.2 _ hmem (by simp)

/-- A name is made of lowercase letters, digits and hyphens. -/
theorem MemoryFrontmatter.unit_of_mem_name (f : MemoryFrontmatter) {u : CodeUnit}
    (hu : u ∈ f.name) : isLower u = true ∨ isDigit u = true ∨ u = hyphen := by
  have h := f.name_ok
  rw [isMemoryName, Bool.and_eq_true, isSlug, List.all_eq_true] at h
  rcases mem_splitOn (a := hyphen) hu with heq | ⟨part, hpart, hmem⟩
  · exact .inr (.inr heq)
  · have hp := h.2 part hpart
    rw [Bool.and_eq_true, List.all_eq_true] at hp
    rcases Bool.or_eq_true_iff.mp (hp.2 u hmem) with h | h
    · exact .inl h
    · exact .inr (.inl h)

theorem MemoryFrontmatter.newline_not_mem_name (f : MemoryFrontmatter) : newline ∉ f.name := by
  intro hmem
  rcases f.unit_of_mem_name hmem with h | h | h
  · exact absurd h (by decide)
  · exact absurd h (by decide)
  · exact absurd h (by decide)

theorem MemoryType.ofText_text (type : MemoryType) : ofText type.text = some type := by
  cases type <;> decide

theorem MemoryType.needsQuoting_text (type : MemoryType) : needsQuoting type.text = false := by
  cases type <;> decide

theorem MemoryType.newline_not_mem_text (type : MemoryType) : newline ∉ type.text := by
  cases type <;> decide

theorem stripNewlines_idem (body : Text) :
    stripNewlines (stripNewlines body) = stripNewlines body :=
  List.rdropWhile_idempotent _ _

/-- The lines of a memory, and what follows them. -/
theorem serializeMemory_eq (m : Memory) : serializeMemory m =
    frontmatterDelimiter ++ newline :: (nameKey ++ colon :: space :: quote m.name ++ newline ::
      (descriptionKey ++ colon :: space :: quote m.description ++ newline ::
        (typeKey ++ colon :: space :: m.type.text ++ newline ::
          (frontmatterDelimiter ++ newline :: (stripNewlines m.body ++
            if stripNewlines m.body = [] then [] else [newline]))))) := by
  rw [serializeMemory]
  simp only [List.intercalate_cons_cons, List.intercalate_singleton, List.append_assoc,
    List.cons_append, List.nil_append]

theorem splitOn_serializeMemory (m : Memory) : (serializeMemory m).splitOn newline =
    frontmatterDelimiter :: (nameKey ++ colon :: space :: quote m.name) ::
      (descriptionKey ++ colon :: space :: quote m.description) ::
      (typeKey ++ colon :: space :: m.type.text) :: frontmatterDelimiter ::
      (stripNewlines m.body ++ if stripNewlines m.body = [] then [] else [newline]).splitOn
        newline := by
  have hline {key v : Text} (hk : IsPlainKey key) (hv : newline ∉ v) :
      newline ∉ key ++ colon :: space :: v := by
    simp [hk.no_newline, hv, (by decide : newline ≠ colon), (by decide : newline ≠ space)]
  have hfence : newline ∉ frontmatterDelimiter := by decide
  rw [serializeMemory_eq, List.splitOn_append_cons_self_of_not_mem hfence,
    List.splitOn_append_cons_self_of_not_mem
      (hline isPlainKey_name (newline_not_mem_quote m.newline_not_mem_name)),
    List.splitOn_append_cons_self_of_not_mem
      (hline isPlainKey_description (newline_not_mem_quote m.newline_not_mem_description)),
    List.splitOn_append_cons_self_of_not_mem
      (hline isPlainKey_type m.type.newline_not_mem_text),
    List.splitOn_append_cons_self_of_not_mem hfence]

theorem splitDocument_serializeMemory (m : Memory) : splitDocument (serializeMemory m) =
    .ok ([newline].intercalate [nameKey ++ colon :: space :: quote m.name,
        descriptionKey ++ colon :: space :: quote m.description,
        typeKey ++ colon :: space :: m.type.text],
      stripNewlines m.body ++ if stripNewlines m.body = [] then [] else [newline]) := by
  have hmark : stripMark (serializeMemory m) = serializeMemory m := by
    rw [serializeMemory_eq]
    rfl
  have hblank : ¬ isBlank frontmatterDelimiter = true := by decide
  have hfence : isFence frontmatterDelimiter = true := by decide
  have hend : ¬ isInside frontmatterDelimiter = true := by decide
  have hname := isPlainKey_name.isInside (colon :: space :: quote m.name)
  have hdescription := isPlainKey_description.isInside (colon :: space :: quote m.description)
  have htype := isPlainKey_type.isInside (colon :: space :: m.type.text)
  rw [splitDocument, hmark, splitOn_serializeMemory]
  simp only [List.dropWhile_cons_of_neg hblank, hfence, Bool.true_eq_false, if_false,
    List.dropWhile_cons_of_pos hname, List.dropWhile_cons_of_pos hdescription,
    List.dropWhile_cons_of_pos htype, List.dropWhile_cons_of_neg hend,
    List.takeWhile_cons_of_pos hname, List.takeWhile_cons_of_pos hdescription,
    List.takeWhile_cons_of_pos htype, List.takeWhile_cons_of_neg hend, List.intercalate_splitOn]

theorem safeParse_self (f : MemoryFrontmatter) :
    safeParse f.name f.description f.type.text = some f := by
  rw [safeParse, MemoryType.ofText_text]
  dsimp only
  rw [dif_pos f.name_ok, dif_pos f.description_ok]

/-- **What is written is read back**, but for the newlines at the end of the body. -/
theorem parseMemory_serializeMemory (m : Memory) :
    parseMemory (serializeMemory m) = .ok { m with body := stripNewlines m.body } := by
  have hline {key v : Text} (hk : IsPlainKey key) (hv : newline ∉ v) :
      newline ∉ key ++ colon :: space :: v := by
    simp [hk.no_newline, hv, (by decide : newline ≠ colon), (by decide : newline ≠ space)]
  have hlines : ∀ line ∈ [nameKey ++ colon :: space :: quote m.name,
      descriptionKey ++ colon :: space :: quote m.description,
      typeKey ++ colon :: space :: m.type.text], newline ∉ line := by
    rw [List.forall_mem_cons, List.forall_mem_cons, List.forall_mem_singleton]
    exact ⟨hline isPlainKey_name (newline_not_mem_quote m.newline_not_mem_name),
      hline isPlainKey_description (newline_not_mem_quote m.newline_not_mem_description),
      hline isPlainKey_type m.type.newline_not_mem_text⟩
  have hname (v : Text) (lines : List Text) :
      parseLines 1 ((nameKey ++ colon :: v) :: lines) [] =
        parseLines 2 lines [(nameKey, lineValue v)] :=
    parseLines_line isPlainKey_name List.not_mem_nil
  have hdescription (w v : Text) (lines : List Text) :
      parseLines 2 ((descriptionKey ++ colon :: v) :: lines) [(nameKey, w)] =
        parseLines 3 lines [(nameKey, w), (descriptionKey, lineValue v)] :=
    parseLines_line isPlainKey_description
      (by decide : descriptionKey ∉ [nameKey])
  have htype (w w' v : Text) : parseLines 3 [typeKey ++ colon :: v]
      [(nameKey, w), (descriptionKey, w')] =
        .ok [(nameKey, w), (descriptionKey, w'), (typeKey, lineValue v)] :=
    parseLines_line isPlainKey_type (by decide : typeKey ∉ [nameKey, descriptionKey])
  have hyaml : parseFrontmatterYaml ([newline].intercalate
      [nameKey ++ colon :: space :: quote m.name,
        descriptionKey ++ colon :: space :: quote m.description,
        typeKey ++ colon :: space :: m.type.text]) =
      .ok [(nameKey, m.name), (descriptionKey, m.description), (typeKey, m.type.text)] := by
    rw [parseFrontmatterYaml, List.splitOn_intercalate newline hlines (by simp), hname,
      hdescription, htype, lineValue_quote, lineValue_quote,
      lineValue_plain m.type.needsQuoting_text]
  have hfields : parseFields
      [(nameKey, m.name), (descriptionKey, m.description), (typeKey, m.type.text)] =
        some m.toMemoryFrontmatter := by
    rw [← safeParse_self m.toMemoryFrontmatter]
    rfl
  have hbody : stripNewlines (stripNewlines m.body ++
      if stripNewlines m.body = [] then [] else [newline]) = stripNewlines m.body := by
    split
    · rw [List.append_nil, stripNewlines_idem]
    · rw [stripNewlines, List.rdropWhile_concat_pos _ _ _ (by simp), ← stripNewlines,
        stripNewlines_idem]
  rw [parseMemory, splitDocument_serializeMemory]
  change (parseFrontmatterYaml _ >>= fun raw ↦ _) = _
  rw [hyaml]
  change (match parseFields _ with | none => _ | some frontmatter => _) = _
  rw [hfields]
  dsimp only
  rw [hbody]

/-- What is read has no newline at the end of its body. -/
theorem stripNewlines_body {text : Text} {m : Memory} (h : parseMemory text = .ok m) :
    stripNewlines m.body = m.body := by
  rw [parseMemory] at h
  cases hsplit : splitDocument text with
  | error e => rw [hsplit] at h; cases h
  | ok parts =>
    rw [hsplit] at h
    change (parseFrontmatterYaml parts.1 >>= fun raw ↦ _) = _ at h
    cases hraw : parseFrontmatterYaml parts.1 with
    | error e => rw [hraw] at h; cases h
    | ok raw =>
      rw [hraw] at h
      change (match parseFields raw with | none => _ | some frontmatter => _) = _ at h
      cases hfields : parseFields raw with
      | none => rw [hfields] at h; cases h
      | some f =>
        rw [hfields] at h
        cases h
        exact stripNewlines_idem parts.2

/-- **A memory that was read** is what is read of it when it is written again. -/
theorem parseMemory_serializeMemory_of_parse {text : Text} {m : Memory}
    (h : parseMemory text = .ok m) : parseMemory (serializeMemory m) = .ok m := by
  rw [parseMemory_serializeMemory, stripNewlines_body h]

/-- **Documents come back.** Every memory is read back from the document written of it, and every
document that is read says the same as the one written of what it was read as. -/
theorem documents_come_back :
    (∀ m : Memory, parseMemory (serializeMemory m) = .ok { m with body := stripNewlines m.body }) ∧
      ∀ text m, parseMemory text = .ok m → parseMemory (serializeMemory m) = .ok m :=
  ⟨parseMemory_serializeMemory, fun _ _ ↦ parseMemory_serializeMemory_of_parse⟩

/-- A document with a quoted description and a fence in its body. -/
def quotedDocument : Text :=
  ofString "---\nname: a-b\n\ndescription: \"x: \\\"y\\\"\" \n# why\ntype: user # here\n" ++
    ofString "---\n---\nz\n\n"

/-- The memory that document is. -/
def quotedMemory : Memory where
  name := ofString "a-b"
  description := ofString "x: \"y\""
  type := .user
  name_ok := by decide
  description_ok := by decide
  body := ofString "---\nz"

theorem documents_come_back_quoted :
    parseMemory (serializeMemory quotedMemory) = .ok quotedMemory :=
  documents_come_back.2 quotedDocument quotedMemory (by decide +kernel)

end RoundTrip

end QwenHarness.Memory
