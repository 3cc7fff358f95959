import QwenHarness.Codec.Utf16
import QwenHarness.Files.Tree

/-!
# Canonical paths

Policy judges a path without looking at the file system, so a path is made canonical before: `~` is
expanded, the Unicode is normalized, the dots are resolved, and so are the links in the longest part
of the path that exists. A path with a root has to stay in it.

While a path is made canonical, the tree does not change.
-/

namespace QwenHarness.Sandbox

open Utf16 FileTree

/-! ## Paths -/

def slash : CodeUnit := 0x2F

def dot : Text := ofString "."

def dotDot : Text := ofString ".."

abbrev IsName (t : Text) : Prop := t ≠ [] ∧ slash ∉ t ∧ t ≠ dot ∧ t ≠ dotDot

abbrev Name : Type := { t : Text // IsName t }

def isName (t : Text) : Bool :=
  !t.isEmpty && !t.contains slash && decide (t ≠ dot) && decide (t ≠ dotDot)

theorem isName_iff {t : Text} : isName t = true ↔ IsName t := by
  simp [isName, IsName, and_assoc]

/-- An absolute path without dots. -/
def toText (p : List Name) : Text :=
  if p = [] then [slash] else p.flatMap fun n ↦ slash :: n.val

def isAbsolute (t : Text) : Bool := t.head? == some slash

/-- What `resolve` does with a part of a path. -/
def resolvePart (p : List Name) (part : Text) : List Name :=
  if part = dotDot then p.dropLast
  else if h : isName part then p ++ [⟨part, isName_iff.mp h⟩]
  else p

/-- `resolve(t)`, from the working directory on. -/
def resolve (cwd : List Name) (t : Text) : List Name :=
  (t.splitOn slash).foldl resolvePart (if isAbsolute t then [] else cwd)

def hasNul (p : List Name) : Bool := p.any fun n ↦ n.val.contains 0

/-! ## The platform -/

structure Stat where
  dev : ℕ
  ino : ℕ
  nlink : ℕ
deriving DecidableEq, Repr

/-- The runtime and the file system. -/
structure Platform where
  /-- `normalize('NFC')`. -/
  nfc : Text → Text
  nfc_nil : nfc [] = []
  nfc_nfc : ∀ t, nfc (nfc t) = nfc t
  /-- A slash is not composed with anything, and nothing else becomes one. -/
  splitOn_nfc : ∀ t, (nfc t).splitOn slash = (t.splitOn slash).map nfc
  homedir : Text
  cwd : List Name
  tree : Tree Name Stat
  access : Access tree
  not_hasNul : ∀ p, (tree.entry p).isSome = true → hasNul p = false
  /-- Why something that is no link cannot be opened for reading. -/
  openSync : List Name → Option Errno

/-! ## Results -/

inductive CanonicalizeErrorCode where
  | notAbsolute
  | symlinkEscape
  | traversalEscape
  | hardlinkDenied
  | ioError
deriving DecidableEq, Repr

structure CanonicalizeError where
  code : CanonicalizeErrorCode
  message : Text
deriving DecidableEq, Repr

structure CanonicalPath where
  path : Text
  doesExist : Bool
  isDirectory : Bool
  isSymlink : Bool
  dev : Option ℕ
  ino : Option ℕ
  nlink : Option ℕ
deriving DecidableEq, Repr

structure CanonicalizeOptions where
  homeDir : Option Text
  root : Option Text
  denyHardlinks : Bool
deriving DecidableEq, Repr

def errnoName : Errno → String
  | .noEntry => "ENOENT"
  | .notDirectory => "ENOTDIR"
  | .loop => "ELOOP"
  | .denied => "EACCES"

def fails {α : Type} (code : CanonicalizeErrorCode) (message : String) (about : Text) :
    Except CanonicalizeError α :=
  .error ⟨code, ofString message ++ about⟩

/-- A path, and why the system refuses it. -/
def refusal (p : List Name) (errno : String) : Text := toText p ++ ofString (": " ++ errno)

/-! ## Making a path canonical -/

namespace Platform

variable (P : Platform)

/-- From the end of a path on, look for a part that exists. The names of the prefix come last first.
The prefix of one name is the last that is tried, and its name does not come into the tail. -/
def resolvePrefix : List Name → List Name → Except CanonicalizeError (List Name)
  | [], tail =>
    match P.access.realpath [] with
    | .ok real => .ok (real ++ tail)
    | .error .noEntry => .ok tail
    | .error e => fails .ioError "cannot resolve " (refusal [] (errnoName e))
  | n :: rest, tail =>
    match P.access.realpath (n :: rest).reverse with
    | .ok real => .ok (real ++ tail)
    | .error .noEntry => if rest = [] then .ok tail else resolvePrefix rest (n :: tail)
    | .error e => fails .ioError "cannot resolve " (refusal (n :: rest).reverse (errnoName e))

def canonicalizeExistingPrefix (target : List Name) : Except CanonicalizeError (List Name) :=
  if hasNul target then
    fails .ioError "cannot resolve " (refusal target "ERR_INVALID_ARG_VALUE")
  else P.resolvePrefix target.reverse []

/-- Is a text another, or does it go on with a slash? -/
def isWithin (root candidate : Text) : Bool :=
  candidate == root ||
    (if root.getLast? = some slash then root else root ++ [slash]).isPrefixOf candidate

def canonicalRoot (root : Text) : Except CanonicalizeError (List Name) :=
  P.canonicalizeExistingPrefix (resolve P.cwd (P.nfc root))

def checkRoot (root : Option Text) (canonical : List Name) : Except CanonicalizeError Unit :=
  match root with
  | none => .ok ()
  | some root =>
    match P.canonicalRoot root with
    | .error e => .error e
    | .ok canonicalRoot =>
      if isWithin (toText canonicalRoot) (toText canonical) then .ok ()
      else fails .traversalEscape "path escapes its root: "
        (toText canonical ++ ofString " is not within " ++ toText canonicalRoot)

/-- What is there is opened, without following a link. -/
def openPath (options : CanonicalizeOptions) (canonical : List Name) (entry : Entry Name Stat) :
    Except CanonicalizeError CanonicalPath :=
  match if entry.isLink then some .loop else P.openSync canonical with
  | some .loop => fails .symlinkEscape "refusing to follow a symlink: " (toText canonical)
  | some e => fails .ioError "open " (refusal canonical (errnoName e))
  | none =>
    if options.denyHardlinks && !entry.isDirectory && decide (1 < entry.info.nlink) then
      fails .hardlinkDenied "refusing a pre-existing hardlinked file (nlink="
        (ofChars (Nat.toDigits 10 entry.info.nlink) ++ ofString "): " ++ toText canonical)
    else .ok
      { path := toText canonical, doesExist := true, isDirectory := entry.isDirectory
        isSymlink := entry.isLink, dev := some entry.info.dev, ino := some entry.info.ino
        nlink := some entry.info.nlink }

def inspect (options : CanonicalizeOptions) (canonical : List Name) :
    Except CanonicalizeError CanonicalPath :=
  match P.access.lstat canonical with
  | .error .noEntry =>
    .ok
      { path := toText canonical, doesExist := false, isDirectory := false, isSymlink := false
        dev := none, ino := none, nlink := none }
  | .error e => fails .ioError "lstat " (refusal canonical (errnoName e))
  | .ok entry =>
    if entry.isLink && options.root.isSome then
      fails .symlinkEscape "final component is a symlink: " (toText canonical)
    else P.openPath options canonical entry

/-- The input with `~` expanded, normalized. -/
def expand (options : CanonicalizeOptions) (input : Text) : Text :=
  let home := options.homeDir.getD P.homedir
  P.nfc (if input = ofString "~" then home
    else if (ofString "~/").isPrefixOf input then home ++ input.drop 1 else input)

/-- The names of the input, before anything is looked up. -/
def lexical (options : CanonicalizeOptions) (input : Text) : List Name :=
  resolve P.cwd (P.expand options input)

def canonicalizePath (options : CanonicalizeOptions) (input : Text) :
    Except CanonicalizeError CanonicalPath :=
  if isAbsolute (P.expand options input) = false then
    fails .notAbsolute "path must be absolute after ~ expansion: " input
  else if (P.expand options input).contains 0 then fails .ioError "path contains a NUL byte" []
  else
    match P.canonicalizeExistingPrefix (P.lexical options input) with
    | .error e => .error e
    | .ok canonical =>
      match P.checkRoot options.root canonical with
      | .error e => .error e
      | .ok () => P.inspect options canonical

end Platform

end QwenHarness.Sandbox
