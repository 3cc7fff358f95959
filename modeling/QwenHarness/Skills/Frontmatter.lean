import QwenHarness.Codec.Quote
import QwenHarness.Memory.Frontmatter

/-!
# Frontmatter of a skill

A skill begins with a block of metadata that anyone may have written. A small subset of YAML is
read: a scalar or a list after a key, or a block of items or of fields below it. What is not of the
subset is an error that names the line, and no key is read twice.

The lines of a block are gathered before their kind is known, and every one of them is trimmed: how
far a line of a block is indented is not looked at.
-/

namespace QwenHarness.Skills

open Utf16
open Memory (newline space doubleQuote hash singleQuote hyphen colon bracket isLower isDigit isBlank
  beforeComment)

def tab : CodeUnit := 0x09
def comma : CodeUnit := 0x2C
def closingBracket : CodeUnit := 0x5D

/-! ## Errors -/

/-- A frontmatter that failed to parse. -/
structure SkillFrontmatterError where
  message : Text
  file : Text
  field : Option Text
  line : Option ℕ
deriving DecidableEq, Repr

def SkillFrontmatterError.new (file detail : Text) (field : Option Text) (line : Option ℕ) :
    SkillFrontmatterError where
  message :=
    ofString "invalid skill " ++
      (match line with
        | none => file
        | some line => file ++ ofString ":" ++ ofString (toString line)) ++
      (match field with
        | none => []
        | some field => ofString " (field \"" ++ field ++ ofString "\")") ++
      ofString ": " ++ detail
  file := file
  field := field
  line := line

/-! ## Values -/

inductive YamlValue where
  | string (value : Text)
  | list (items : List Text)
  | mapping (entries : List (Text × Text))
deriving DecidableEq, Repr

/-- Strip one layer of matching quotes, as for a memory. -/
def unquote (raw : Text) : Text := Memory.unquote raw

/-- `KEY_RE`. -/
def isKey : Text → Bool
  | [] => false
  | u :: us => isLower u && us.all fun v ↦ isLower v || isDigit v || decide (v = hyphen)

def isQuote (u : CodeUnit) : Bool := decide (u = doubleQuote ∨ u = singleQuote)

/-- `line.slice(0, line.indexOf(':')).trim()`. -/
def keyOf (line : Text) : Text := trim (line.takeWhile (· ≠ colon))

/-- `line.slice(line.indexOf(':') + 1)`. -/
def restOf (line : Text) : Text := (line.dropWhile (· ≠ colon)).tail

/-! ### Flow lists -/

/-- The items that are finished, the one that is read, and the quote that is open. -/
structure FlowState where
  items : List Text
  current : Text
  quote : Option CodeUnit
deriving DecidableEq, Repr

def flowStep (s : FlowState) (ch : CodeUnit) : FlowState :=
  match s.quote with
  | some quote =>
    { s with current := s.current ++ [ch], quote := if ch = quote then none else some quote }
  | none =>
    if isQuote ch then { s with current := s.current ++ [ch], quote := some ch }
    else if ch = comma then { s with items := s.items ++ [s.current], current := [] }
    else { s with current := s.current ++ [ch] }

/-- `raw.slice(1, -1).trim()`. -/
def flowInner (raw : Text) : Text := trim raw.tail.dropLast

def flowScan (inner : Text) : FlowState := inner.foldl flowStep ⟨[], [], none⟩

/-- The texts between the commas of a list. -/
def flowPieces (raw : Text) : List Text :=
  (flowScan (flowInner raw)).items ++ [(flowScan (flowInner raw)).current]

/-- What is kept of the texts between the commas. -/
def flowItems (pieces : List Text) : List Text := (pieces.map unquote).filter (· ≠ [])

def parseFlowList (file : Text) (line : ℕ) (key raw : Text) :
    Except SkillFrontmatterError (List Text) :=
  if flowInner raw = [] then .ok []
  else if (flowScan (flowInner raw)).quote ≠ none then
    .error (.new file (ofString "unterminated quote in list") (some key) (some line))
  else .ok (flowItems (flowPieces raw))

/-- The value in the line of its key: an inline `#` is only a comment when the value is unquoted. -/
def inlineValue (rest : Text) : Text :=
  if (trim rest).head?.any isQuote then trim rest else trim (beforeComment rest)

/-! ### Blocks -/

/-- `/^\s/`. -/
def isIndented (line : Text) : Bool := line.head?.any isSpace

def isComment (line : Text) : Bool := decide ((trim line).head? = some hash)

/-- `- `. -/
def itemMark : Text := [hyphen, space]

/-- The lines of the block below a key, and how many lines there are up to its end. -/
def collectBlock (file key : Text) :
    ℕ → List Text → Except SkillFrontmatterError (List Text × ℕ)
  | _, [] => .ok ([], 0)
  | lineNo, candidate :: lines =>
    if isBlank candidate then
      (collectBlock file key (lineNo + 1) lines).map fun r ↦ (r.1, r.2 + 1)
    else if !isIndented candidate then .ok ([], 0)
    else if candidate.contains tab then
      .error (.new file (ofString "tabs are not permitted in frontmatter") (some key) (some lineNo))
    else
      (collectBlock file key (lineNo + 1) lines).map fun r ↦ (candidate :: r.1, r.2 + 1)

def readItems (file : Text) (lineNo : ℕ) (key : Text) :
    List Text → Except SkillFrontmatterError (List Text)
  | [] => .ok []
  | line :: block =>
    let entry := trim line
    if ¬ itemMark <+: entry then
      .error (.new file (ofString "expected a \"- item\" list entry: " ++ entry) (some key)
        (some lineNo))
    else (readItems file lineNo key block).map (unquote (entry.drop 2) :: ·)

def readFields (file : Text) (lineNo : ℕ) (key : Text) (mapping : List (Text × Text)) :
    List Text → Except SkillFrontmatterError (List (Text × Text))
  | [] => .ok mapping
  | line :: block =>
    let entry := trim line
    if !entry.contains colon then
      .error (.new file
        (ofString "expected \"key: value\" under \"" ++ key ++ ofString "\": " ++ entry) (some key)
        (some lineNo))
    else
      let subKey := keyOf entry
      if !isKey subKey then
        .error (.new file (ofString "invalid key under \"" ++ key ++ ofString "\": " ++ subKey)
          (some key) (some lineNo))
      else if (mapping.map Prod.fst).contains subKey then
        .error (.new file (ofString "duplicate key under \"" ++ key ++ ofString "\": " ++ subKey)
          (some key) (some lineNo))
      else
        readFields file lineNo key (mapping ++ [(subKey, unquote (restOf entry))]) block

/-- Items when the first line begins one, and fields otherwise. -/
def readBlock (file : Text) (lineNo : ℕ) (key : Text) :
    List Text → Except SkillFrontmatterError YamlValue
  | [] => .error (.new file (ofString "key has no value") (some key) (some lineNo))
  | first :: block =>
    if itemMark <+: trim first then (readItems file lineNo key (first :: block)).map .list
    else (readFields file lineNo key [] (first :: block)).map .mapping

/-! ## Lines -/

/-- What is read from a line on: a key, its value, and how many lines of a block belong to it. -/
def readLine (file : Text) (lineNo : ℕ) (rawLine : Text) (lines : List Text) :
    Except SkillFrontmatterError (Option (Text × YamlValue × ℕ)) :=
  let trimmed := trim rawLine
  if rawLine.contains tab then
    .error (.new file (ofString "tabs are not permitted in frontmatter") none (some lineNo))
  else if isBlank rawLine || isComment rawLine then .ok none
  else if isIndented rawLine then
    .error (.new file (ofString "unexpected indented line: " ++ trimmed) none (some lineNo))
  else if !rawLine.contains colon then
    .error (.new file (ofString "line is not \"key: value\": " ++ trimmed) none (some lineNo))
  else
    let key := keyOf rawLine
    if !isKey key then
      .error (.new file (ofString "invalid frontmatter key: " ++ quote key) none (some lineNo))
    else
      let value := inlineValue (restOf rawLine)
      if value.head? = some bracket then
        if value.getLast? ≠ some closingBracket then
          .error (.new file (ofString "unterminated list (expected \"]\")") (some key)
            (some lineNo))
        else (parseFlowList file lineNo key value).map fun items ↦ some (key, .list items, 0)
      else if value ≠ [] then .ok (some (key, .string (unquote value), 0))
      else
        -- an empty value means a block follows
        (collectBlock file key (lineNo + 1) lines).bind fun r ↦
          (readBlock file lineNo key r.1).map fun value ↦ some (key, value, r.2)

/-- A key is set once. -/
def setKey (file : Text) (lineNo : ℕ) (out : List (Text × YamlValue)) (key : Text)
    (value : YamlValue) : Except SkillFrontmatterError (List (Text × YamlValue)) :=
  if (out.map Prod.fst).contains key then
    .error (.new file (ofString "duplicate frontmatter key") (some key) (some lineNo))
  else .ok (out ++ [(key, value)])

/-- The lines from line `lineNo` on, where the next `skip` lines have been read with a block. -/
def parseLines (file : Text) :
    ℕ → ℕ → List (Text × YamlValue) → List Text →
      Except SkillFrontmatterError (List (Text × YamlValue))
  | _, _, out, [] => .ok out
  | lineNo, skip + 1, out, _ :: lines => parseLines file (lineNo + 1) skip out lines
  | lineNo, 0, out, rawLine :: lines =>
    match readLine file lineNo rawLine lines with
    | .error e => .error e
    | .ok none => parseLines file (lineNo + 1) 0 out lines
    | .ok (some (key, value, m)) =>
      match setKey file lineNo out key value with
      | .error e => .error e
      | .ok out => parseLines file (lineNo + 1) m out lines

def parseFrontmatterYaml (yaml file : Text) (firstLine : ℕ) :
    Except SkillFrontmatterError (List (Text × YamlValue)) :=
  parseLines file firstLine 0 [] (yaml.splitOn newline)

example : parseFrontmatterYaml (ofString "name: a # b\nlist: [x, \"y, z\"]\nhooks:\n  a: 1\n")
    [] 1 = .ok [(ofString "name", .string (ofString "a")),
      (ofString "list", .list [ofString "x", ofString "y, z"]),
      (ofString "hooks", .mapping [(ofString "a", ofString "1")])] := by
  decide +kernel

end QwenHarness.Skills
