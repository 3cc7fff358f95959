import QwenHarness.Protocol.Sanitize

/-!
# Unified diffs

A diff that a tool has printed is read line by line, and every scrap of its text is sanitized. The
parser goes by how a line begins and by whether it is inside a hunk. It does not count the lines of
a hunk, although their number stands in its header.
-/

namespace QwenHarness.Tui

open Utf16

/-! ## What is read -/

inductive DiffLineKind where
  | context
  | add
  | remove
  | header
deriving DecidableEq, Repr

structure DiffLine where
  kind : DiffLineKind
  text : Text
deriving DecidableEq, Repr

structure DiffHunk where
  header : Text
  oldStart : ℕ
  oldLines : ℕ
  newStart : ℕ
  newLines : ℕ
  lines : List DiffLine
deriving DecidableEq, Repr

structure DiffFile where
  oldPath : Option Text
  newPath : Option Text
  hunks : List DiffHunk
deriving DecidableEq, Repr

structure ParsedDiff where
  files : List DiffFile
  /-- The hunks of all files. -/
  hunks : List DiffHunk
deriving DecidableEq, Repr

def ParsedDiff.ofFiles (files : List DiffFile) : ParsedDiff := ⟨files, files.flatMap (·.hunks)⟩

/-! ## The parts of a line -/

def safe (text : Text) : Text :=
  (sanitize text { origin := .tool, maxLength := none, multiline := some false }).text

def startsWith (line : Text) (word : String) : Bool := (ofString word).isPrefixOf line

/-- A path without the timestamp after a tab and without a leading `a/` or `b/`. -/
def cleanPath (raw : Text) : Text :=
  let withoutMeta := (raw.splitOn 0x09).head?.getD raw
  if startsWith withoutMeta "a/" || startsWith withoutMeta "b/" then withoutMeta.drop 2
  else withoutMeta

def isDigit (u : CodeUnit) : Bool := isBetween 0x30 0x39 u

/-- `(\d+)`. -/
def takeDigits (t : Text) : Option (ℕ × Text) :=
  let digits := t.takeWhile isDigit
  if digits = [] then none
  else some (Nat.ofDigitChars 10 (toChars digits) 0, t.dropWhile isDigit)

/-- `(?:,(\d+))?`. -/
def takeCount (t : Text) : Option ℕ × Text :=
  match (t.dropPrefix? (ofString ",")).bind takeDigits with
  | some (n, rest) => (some n, rest)
  | none => (none, t)

/-- The start of a side of a hunk, and the number of its lines, which is one if it is left out. -/
def takeRange (t : Text) : Option ((ℕ × ℕ) × Text) :=
  (takeDigits t).map fun x ↦ ((x.1, (takeCount x.2).1.getD 1), (takeCount x.2).2)

/-- `HUNK_HEADER`. -/
def hunkHeader (line : Text) : Option ((ℕ × ℕ) × ℕ × ℕ) := do
  let t ← line.dropPrefix? (ofString "@@")
  let t ← (t.dropWhile (isUnit 0x40)).dropPrefix? (ofString " -")
  let (old, t) ← takeRange t
  let t ← t.dropPrefix? (ofString " +")
  let (new, t) ← takeRange t
  let _ ← t.dropPrefix? (ofString " @@")
  return (old, new)

/-- A line inside a hunk. The first letter is the marker. -/
def hunkLine (rawLine : Text) : DiffLine :=
  match rawLine with
  | [] => ⟨.context, safe []⟩
  | marker :: content =>
    if isUnit 0x2B marker then ⟨.add, safe content⟩
    else if isUnit 0x2D marker then ⟨.remove, safe content⟩
    -- `\ No newline at end of file`
    else if isUnit 0x5C marker then ⟨.header, safe rawLine⟩
    else ⟨.context, safe (if isUnit 0x20 marker then content else rawLine)⟩

/-! ## The parser -/

structure Parser where
  /-- The files before the one that is read. -/
  files : List DiffFile
  /-- The file that is read, without the hunk that is read. -/
  file : Option DiffFile
  hunk : Option DiffHunk

namespace Parser

variable (p : Parser)

def init : Parser := ⟨[], none, none⟩

/-- `ensureFile`, with the hunk that is read in its place. -/
def ensureFile : DiffFile :=
  let file := p.file.getD ⟨none, none, []⟩
  { file with hunks := file.hunks ++ p.hunk.toList }

def result : List DiffFile :=
  match p.file with
  | none => p.files
  | some _ => p.files ++ [p.ensureFile]

/-- A new file section. -/
def newFile : Parser := ⟨p.result, some ⟨none, none, []⟩, none⟩

/-- A new hunk. -/
def newHunk (hunk : DiffHunk) : Parser := ⟨p.files, some p.ensureFile, some hunk⟩

def setOldPath (path : Text) : Parser :=
  ⟨p.files, some { p.ensureFile with oldPath := some path }, none⟩

def setNewPath (path : Text) : Parser :=
  ⟨p.files, some { p.ensureFile with newPath := some path }, none⟩

def pushLine (line : DiffLine) : Parser :=
  { p with hunk := p.hunk.map fun hunk ↦ { hunk with lines := hunk.lines ++ [line] } }

/-- Does a line start a new file? A plain diff starts one at `---`. -/
def startsFile (rawLine : Text) : Bool :=
  startsWith rawLine "diff --git " || (startsWith rawLine "--- " && p.hunk.isSome)

/-- What is done with a line once its file is there. Numbers are rounded to `nearest`. -/
def readLine (nearest : ℕ → ℕ) (p : Parser) (rawLine : Text) : Parser :=
  if startsWith rawLine "--- " then p.setOldPath (safe (cleanPath (rawLine.drop 4)))
  else if startsWith rawLine "+++ " then p.setNewPath (safe (cleanPath (rawLine.drop 4)))
  else
    match hunkHeader rawLine with
    | some (old, new) =>
      p.newHunk ⟨safe rawLine, nearest old.1, nearest old.2, nearest new.1, nearest new.2, []⟩
    -- What is outside of a hunk is ignored.
    | none => if p.hunk.isSome then p.pushLine (hunkLine rawLine) else p

def step (nearest : ℕ → ℕ) (p : Parser) (rawLine : Text) : Parser :=
  (if p.startsFile rawLine then p.newFile else p).readLine nearest rawLine

def run (nearest : ℕ → ℕ) (p : Parser) (rawLines : List Text) : Parser :=
  rawLines.foldl (step nearest) p

end Parser

def parseUnifiedDiff (nearest : ℕ → ℕ) (input : Text) : ParsedDiff :=
  .ofFiles ((Parser.init.run nearest (input.splitOn 0x0A)).result)

/-! ## Valid diffs -/

/-- No newline. -/
abbrev IsLine (t : Text) : Prop := (0x0A : CodeUnit) ∉ t

abbrev Line : Type := { t : Text // IsLine t }

/-- A line of the body of a hunk. -/
inductive BodyLine where
  | context (content : Line)
  /-- An empty line of the context, without its marker. -/
  | blank
  | removed (content : Line)
  | added (content : Line)
  /-- `\ No newline at end of file`. -/
  | remark (content : Line)

namespace BodyLine

def raw : BodyLine → Text
  | context content => 0x20 :: content.val
  | blank => []
  | removed content => 0x2D :: content.val
  | added content => 0x2B :: content.val
  | remark content => 0x5C :: content.val

def parsed : BodyLine → DiffLine
  | context content => ⟨.context, safe content.val⟩
  | blank => ⟨.context, safe []⟩
  | removed content => ⟨.remove, safe content.val⟩
  | added content => ⟨.add, safe content.val⟩
  | remark content => ⟨.header, safe (0x5C :: content.val)⟩

def isOld : BodyLine → Bool
  | context _ | blank | removed _ => true
  | _ => false

def isNew : BodyLine → Bool
  | context _ | blank | added _ => true
  | _ => false

/-- A line that looks like one with a path. -/
def imitates : BodyLine → Bool
  | removed content => startsWith content.val "-- "
  | added content => startsWith content.val "++ "
  | _ => false

end BodyLine

structure Hunk where
  oldStart : ℕ
  newStart : ℕ
  /-- Where a side has one line, the number may be left out. -/
  short : Bool
  /-- What stands behind the header. -/
  heading : Line
  body : List BodyLine

namespace Hunk

variable (h : Hunk)

def oldLines : ℕ := h.body.countP BodyLine.isOld

def newLines : ℕ := h.body.countP BodyLine.isNew

def range (start count : ℕ) : Text :=
  ofChars (Nat.toDigits 10 start) ++
    if h.short && count = 1 then [] else ofString "," ++ ofChars (Nat.toDigits 10 count)

/-- The header, whose numbers are those of the lines of the body. -/
def header : Text :=
  ofString "@@" ++ (ofString " -" ++ (h.range h.oldStart h.oldLines ++ (ofString " +" ++
    (h.range h.newStart h.newLines ++ (ofString " @@" ++ h.heading.val)))))

def rawLines : List Text := h.header :: h.body.map BodyLine.raw

/-- The hunk with the start of its body. -/
def opened (nearest : ℕ → ℕ) (h : Hunk) (lines : List DiffLine) : DiffHunk :=
  ⟨safe h.header, nearest h.oldStart, nearest h.oldLines, nearest h.newStart, nearest h.newLines,
    lines⟩

def parsed (nearest : ℕ → ℕ) (h : Hunk) : DiffHunk :=
  h.opened nearest (h.body.map BodyLine.parsed)

/-- No line of the body looks like one with a path. -/
def IsPlain : Prop := ∀ l ∈ h.body, l.imitates = false

end Hunk

/-- A line outside of all hunks that says nothing about paths. -/
structure Remark where
  line : Line
  git : startsWith line.val "diff --git " = false
  old : startsWith line.val "--- " = false
  new : startsWith line.val "+++ " = false
  hunk : hunkHeader line.val = none

/-- The two paths and the hunks of a file that was changed. -/
structure Patch where
  oldPath : Line
  newPath : Line
  first : Hunk
  more : List Hunk

namespace Patch

def hunks (c : Patch) : List Hunk := c.first :: c.more

def rawLines (c : Patch) : List Text :=
  (ofString "--- " ++ c.oldPath.val) :: (ofString "+++ " ++ c.newPath.val) ::
    c.hunks.flatMap Hunk.rawLines

def parsed (nearest : ℕ → ℕ) (c : Patch) : DiffFile :=
  ⟨some (safe (cleanPath c.oldPath.val)), some (safe (cleanPath c.newPath.val)),
    c.hunks.map (Hunk.parsed nearest)⟩

end Patch

/-- What a diff says of a file. -/
inductive FileDiff where
  /-- `diff --git`, with the lines of its extended header. There may be no patch. -/
  | git (names : Line) (extended : List Remark) (patch : Option Patch)
  | plain (preamble : List Remark) (patch : Patch)

namespace FileDiff

def patch? : FileDiff → Option Patch
  | git _ _ patch => patch
  | plain _ patch => some patch

def rawLines : FileDiff → List Text
  | git names extended patch =>
    (ofString "diff --git " ++ names.val) ::
      (extended.map (·.line.val) ++ (patch.map Patch.rawLines).getD [])
  | plain preamble patch => preamble.map (·.line.val) ++ patch.rawLines

def parsed (nearest : ℕ → ℕ) (f : FileDiff) : DiffFile :=
  (f.patch?.map (Patch.parsed nearest)).getD ⟨none, none, []⟩

end FileDiff

/-- A valid unified diff. The lines at its end may be one empty line: then it ends in a newline. -/
structure UnifiedDiff where
  /-- Hunks before any path. -/
  bare : List Hunk
  files : List FileDiff
  trailing : List Remark

namespace UnifiedDiff

variable (d : UnifiedDiff)

def rawLines : List Text :=
  d.bare.flatMap Hunk.rawLines ++ (d.files.flatMap FileDiff.rawLines ++
    d.trailing.map (·.line.val))

def text : Text := [(0x0A : CodeUnit)].intercalate d.rawLines

/-- The files before the ones with a path. -/
def bareFiles (nearest : ℕ → ℕ) : List DiffFile :=
  if d.bare = [] then [] else [⟨none, none, d.bare.map (Hunk.parsed nearest)⟩]

def parsed (nearest : ℕ → ℕ) : ParsedDiff :=
  .ofFiles (d.bareFiles nearest ++ d.files.map (FileDiff.parsed nearest))

end UnifiedDiff

/-! ## What the parser tells apart -/

/-- Where a part of a diff stands. -/
inductive Place where
  | start
  /-- After a file without hunks. -/
  | afterNames
  | afterHunk
deriving DecidableEq, Repr

def Place.afterHunks (place : Place) (hunks : List Hunk) : Place :=
  if hunks = [] then place else .afterHunk

namespace FileDiff

/-- Without `diff --git`, a file has to follow a hunk at once, or come first. -/
def IsSeen (place : Place) : FileDiff → Prop
  | git .. => True
  | plain preamble _ =>
    match place with
    | .start => True
    | .afterNames => False
    | .afterHunk => preamble = []

def IsPlain (f : FileDiff) : Prop := ∀ c ∈ f.patch?, ∀ h ∈ c.hunks, h.IsPlain

def place (f : FileDiff) : Place := if f.patch?.isSome then .afterHunk else .afterNames

end FileDiff

/-- Nothing in the files after a place is mistaken for anything else. -/
def AreClear (trailing : List Remark) : Place → List FileDiff → Prop
  | place, [] => place = .afterHunk → trailing = []
  | place, f :: fs => f.IsSeen place ∧ f.IsPlain ∧ AreClear trailing f.place fs

/-- No line of a body looks like one with a path. Between a hunk and the next file there is nothing
but what begins with `diff --git`, after the last one there is nothing, and a file that does not
begin so comes first or after a hunk. -/
def UnifiedDiff.IsClear (d : UnifiedDiff) : Prop :=
  (∀ h ∈ d.bare, h.IsPlain) ∧ AreClear d.trailing (Place.start.afterHunks d.bare) d.files

end QwenHarness.Tui
