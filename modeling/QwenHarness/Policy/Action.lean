import Mathlib.Data.List.Infix
import Mathlib.Data.List.Sort
import QwenHarness.Codec.Decimal
import QwenHarness.Policy.Paths

/-!
# Normalized actions

The unit of authorization: one side effect, fully specified. An approval binds to the digest of the
action, which is the hash of its JSON text with the keys sorted. Policy never looks at the file
system; it checks that a path has the form a canonical path has and refuses the action otherwise.

The hash, the normal form of a text and its lower case come from the runtime. Nothing below depends
on what they compute, so they are parameters.
-/

namespace QwenHarness.Policy

/-- The functions on text that the runtime supplies. -/
structure Platform where
  /-- The hexadecimal SHA-256 of a text. -/
  sha256 : String → String
  /-- Unicode normal form C. -/
  nfc : String → String
  toLowerCase : String → String

/-! ## Actions -/

inductive ActionKind where
  | fileRead
  | fileWrite
  | fileEdit
  | patch
  | shell
  | gitRead
  | gitWrite
  | network
  | mcp
deriving DecidableEq, Repr

def ActionKind.name : ActionKind → String
  | .fileRead => "file-read"
  | .fileWrite => "file-write"
  | .fileEdit => "file-edit"
  | .patch => "patch"
  | .shell => "shell"
  | .gitRead => "git-read"
  | .gitWrite => "git-write"
  | .network => "network"
  | .mcp => "mcp"

/-- Kinds that change the host. -/
def mutationKinds : List ActionKind := [.fileWrite, .fileEdit, .patch, .shell, .gitWrite]

inductive GitReadOperation where
  | status
  | diff
  | log
  | «show»
  | blame
  | lsFiles
deriving DecidableEq, Repr

def GitReadOperation.name : GitReadOperation → String
  | .status => "status"
  | .diff => "diff"
  | .log => "log"
  | .show => "show"
  | .blame => "blame"
  | .lsFiles => "ls-files"

inductive NormalizedAction where
  | fileRead (path : String)
  | fileWrite (path : String) (createsExecutable : Bool) (contentDigest : String)
  | fileEdit (path : String) (createsExecutable : Bool) (editsDigest : String)
  | patch (paths : List String) (createsExecutable : Bool) (patchDigest : String)
  | shell (command : String) (argv : List String) (cwd : String)
  | gitRead (repoRoot : String) (operation : GitReadOperation)
  | gitWrite (repoRoot operation : String) (destructive : Bool) (argv : List String)
  | network (method url host : String) (port : ℕ) (scheme : String)
  | mcp (server tool : String) (sideEffect : Bool) (argumentsDigest : String)
deriving DecidableEq, Repr

namespace NormalizedAction

def kind : NormalizedAction → ActionKind
  | fileRead .. => .fileRead
  | fileWrite .. => .fileWrite
  | fileEdit .. => .fileEdit
  | patch .. => .patch
  | shell .. => .shell
  | gitRead .. => .gitRead
  | gitWrite .. => .gitWrite
  | network .. => .network
  | mcp .. => .mcp

end NormalizedAction

/-! ## The digest -/

/-- The value of a field of an action. -/
inductive FieldValue where
  | text (s : String)
  | flag (b : Bool)
  | number (n : ℕ)
  | texts (ss : List String)
deriving DecidableEq, Repr

def hexDigit (n : ℕ) : Char := "0123456789abcdef".toList.getD n '0'

/-- How JSON spells a character inside a string. -/
def jsonChar (c : Char) : List Char :=
  if c = '"' then ['\\', '"']
  else if c = '\\' then ['\\', '\\']
  else if c.toNat = 0x08 then ['\\', 'b']
  else if c.toNat = 0x0C then ['\\', 'f']
  else if c.toNat = 0x0A then ['\\', 'n']
  else if c.toNat = 0x0D then ['\\', 'r']
  else if c.toNat = 0x09 then ['\\', 't']
  else if c.toNat < 0x20 then
    ['\\', 'u', '0', '0', hexDigit (c.toNat / 16), hexDigit (c.toNat % 16)]
  else [c]

def jsonString (s : String) : String :=
  "\"" ++ String.ofList (s.toList.flatMap jsonChar) ++ "\""

def FieldValue.json : FieldValue → String
  | .text s => jsonString s
  | .flag b => if b then "true" else "false"
  | .number n => String.ofList (Codec.Number.ofNat n).spell
  | .texts ss => "[" ++ ",".intercalate (ss.map jsonString) ++ "]"

/-- An object with its keys sorted, so that their order does not show. -/
def canonicalJson (entries : List (String × FieldValue)) : String :=
  "\x7b" ++
    ",".intercalate
      ((entries.insertionSort fun a b ↦ a.1 ≤ b.1).map fun (k, v) ↦ jsonString k ++ ":" ++ v.json)
    ++ "\x7d"

/-- The action as the object it is. -/
def NormalizedAction.entries : NormalizedAction → List (String × FieldValue)
  | .fileRead path => [("kind", .text "file-read"), ("path", .text path)]
  | .fileWrite path createsExecutable contentDigest =>
    [("kind", .text "file-write"), ("path", .text path),
      ("createsExecutable", .flag createsExecutable), ("contentDigest", .text contentDigest)]
  | .fileEdit path createsExecutable editsDigest =>
    [("kind", .text "file-edit"), ("path", .text path),
      ("createsExecutable", .flag createsExecutable), ("editsDigest", .text editsDigest)]
  | .patch paths createsExecutable patchDigest =>
    [("kind", .text "patch"), ("paths", .texts paths),
      ("createsExecutable", .flag createsExecutable), ("patchDigest", .text patchDigest)]
  | .shell command argv cwd =>
    [("kind", .text "shell"), ("command", .text command), ("argv", .texts argv),
      ("cwd", .text cwd)]
  | .gitRead repoRoot operation =>
    [("kind", .text "git-read"), ("repoRoot", .text repoRoot),
      ("operation", .text operation.name)]
  | .gitWrite repoRoot operation destructive argv =>
    [("kind", .text "git-write"), ("repoRoot", .text repoRoot), ("operation", .text operation),
      ("destructive", .flag destructive), ("argv", .texts argv)]
  | .network method url host port scheme =>
    [("kind", .text "network"), ("method", .text method), ("url", .text url),
      ("host", .text host), ("port", .number port), ("scheme", .text scheme)]
  | .mcp server tool sideEffect argumentsDigest =>
    [("kind", .text "mcp"), ("server", .text server), ("tool", .text tool),
      ("sideEffect", .flag sideEffect), ("argumentsDigest", .text argumentsDigest)]

/-- The identity of an action, which is what an approval names. -/
def actionDigest (sys : Platform) (action : NormalizedAction) : String :=
  sys.sha256 (canonicalJson action.entries)

/-! ## What an action reaches -/

/-- Every path the action names. -/
def actionPaths : NormalizedAction → List String
  | .fileRead path => [path]
  | .fileWrite path _ _ => [path]
  | .fileEdit path _ _ => [path]
  | .patch paths _ _ => paths
  | .shell _ _ cwd => [cwd]
  | .gitRead repoRoot _ => [repoRoot]
  | .gitWrite repoRoot _ _ _ => [repoRoot]
  | .network .. => []
  | .mcp .. => []

/-- Whether the action writes to its paths. The directory a command runs in is not written to. -/
def isWriteAction : NormalizedAction → Bool
  | .fileWrite .. => true
  | .fileEdit .. => true
  | .patch .. => true
  | .gitWrite .. => true
  | _ => false

/-- Whether the action changes the world. -/
def isSideEffect : NormalizedAction → Bool
  | .mcp _ _ sideEffect _ => sideEffect
  | .network .. => true
  | action => decide (action.kind ∈ mutationKinds)

/-! ## Canonical form -/

structure CanonicalityFailure where
  path : String
  why : String
deriving DecidableEq, Repr

/-- Sixty-four lower-case hexadecimal digits. -/
def isHex64 (s : String) : Bool :=
  decide (s.toList.length = 64) && s.toList.all fun c ↦
    decide ('0' ≤ c ∧ c ≤ '9') || decide ('a' ≤ c ∧ c ≤ 'f')

def checkPath (sys : Platform) (path : String) : Option String :=
  let chars := path.toList
  let segments := chars.splitOn '/'
  if path = "" then some "empty path"
  else if ¬ ['/'] <+: chars then some "not an absolute path"
  else if sys.nfc path ≠ path then some "not Unicode NFC normalized"
  else if Char.ofNat 0 ∈ chars then some "contains a NUL byte"
  else if ['.', '.'] ∈ segments then some "contains a '..' segment (not canonicalized)"
  else if ['.'] ∈ segments.tail then some "contains a '.' segment"
  else if 1 < chars.length ∧ ['/'] <:+ chars then some "has a trailing slash"
  else if ['/', '/'] <:+: chars then some "contains an empty segment"
  else none

/-- What a digest field is missing. -/
def checkDigest (path digest why : String) : List CanonicalityFailure :=
  if isHex64 digest then [] else [⟨path, why⟩]

/-- Every way the action is not canonical. An action with none may be judged. -/
def checkCanonicalAction (sys : Platform) (action : NormalizedAction) : List CanonicalityFailure :=
  ((actionPaths action).filterMap fun path ↦
    (checkPath sys path).map fun why ↦ ⟨path, why⟩) ++
  match action with
  | .fileWrite path _ contentDigest =>
    checkDigest path contentDigest "contentDigest is not a sha256 hex digest"
  | .fileEdit path _ editsDigest =>
    checkDigest path editsDigest "editsDigest is not a sha256 hex digest"
  | .patch paths _ patchDigest =>
    checkDigest (paths.headD "") patchDigest "patchDigest is not a sha256 hex digest" ++
      if paths = [] then [⟨"", "a patch action must name at least one path"⟩] else []
  | .shell _ argv cwd =>
    if argv = [] then [⟨cwd, "a shell action must have a parsed argv"⟩] else []
  | .network _ url host _ _ =>
    (if host = "" then [⟨url, "network host is empty"⟩] else []) ++
      if host ≠ sys.toLowerCase host then [⟨url, "network host is not lowercased"⟩] else []
  | .mcp _ _ _ argumentsDigest =>
    checkDigest "" argumentsDigest "argumentsDigest is not a sha256 hex digest"
  | _ => []

/-- The text an approval dialog shows. -/
def describeAction : NormalizedAction → String
  | .fileRead path => "read " ++ path
  | .fileWrite path createsExecutable _ =>
    "write " ++ path ++ if createsExecutable then " (executable)" else ""
  | .fileEdit path createsExecutable _ =>
    "edit " ++ path ++ if createsExecutable then " (executable)" else ""
  | .patch paths _ _ =>
    "patch " ++ toString paths.length ++ " file(s): " ++ ", ".intercalate paths
  | .shell command _ cwd => "run `" ++ command ++ "` in " ++ cwd
  | .gitRead repoRoot operation => "git " ++ operation.name ++ " in " ++ repoRoot
  | .gitWrite repoRoot operation destructive _ =>
    "git " ++ operation ++ (if destructive then " (destructive)" else "") ++ " in " ++ repoRoot
  | .network method url _ _ _ => method ++ " " ++ url
  | .mcp server tool sideEffect _ =>
    "mcp " ++ server ++ "/" ++ tool ++ if sideEffect then " (side effect)" else ""

/-- The cloud endpoint that hands out the credentials of an instance. -/
def isMetadataHost (sys : Platform) (host : String) : Bool :=
  let h := sys.toLowerCase host
  decide (h ∈ metadataHosts) || isLinkLocalV4 h

end QwenHarness.Policy
