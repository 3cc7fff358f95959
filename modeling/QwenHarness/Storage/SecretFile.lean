import QwenHarness.Run.Along
import QwenHarness.Storage.Base64
import QwenHarness.Table.Assoc

/-!
# The encrypted file of secrets

Secrets are kept in one file, each under its key as a ciphertext of its own. Every call reads the
file again, so all instances that share it work as one. Somebody without the master key may put
anything in place of the file.

The entries are an object of JavaScript, and a name that every object inherits is found in it
without being there. A ciphertext does not say which key it was made for, so it can be moved from
one to another.
-/

namespace QwenHarness.SecretStore

open Policy (Json)
open Codec (Number)
open Utf16

/-! ## The platform -/

/-- What the runtime does that is no part of the language. -/
structure Platform where
  scryptSync : (password : Text) → (salt : List UInt8) → List UInt8
  /-- AES-256-GCM: what is enciphered, and its tag. -/
  encipher : (key iv plain : List UInt8) → List UInt8 × List UInt8
  decipher : (key iv tag data : List UInt8) → Option (List UInt8)
  decipher_encipher : ∀ key iv plain,
    decipher key iv (encipher key iv plain).2 (encipher key iv plain).1 = some plain
  /-- `Buffer.from(value, 'base64')` of an array or an object. -/
  bufferFrom : Json → Option (List UInt8)
  /-- What a value that is no plain object inherits. -/
  inherits : Json → Text → Bool

/-- The names that every object inherits. -/
def objectPrototype : List Text :=
  ["constructor", "__defineGetter__", "__defineSetter__", "hasOwnProperty", "__lookupGetter__",
    "__lookupSetter__", "isPrototypeOf", "propertyIsEnumerable", "toString", "valueOf", "__proto__",
    "toLocaleString"].map ofString

namespace Platform

variable (p : Platform)

/-- A name that is found in a value without being there. -/
def isInherited (v : Json) (k : Text) : Bool :=
  match v with
  | .obj _ => objectPrototype.contains k
  | _ => p.inherits v k

/-- `Buffer.from(value, 'base64')`, which throws for what is no string, array or object. -/
def toBytes : Json → Option (List UInt8)
  | .str s => some (fromBase64 s)
  | .arr xs => p.bufferFrom (.arr xs)
  | .obj kvs => p.bufferFrom (.obj kvs)
  | _ => none

end Platform

/-! ## Values -/

/-- The properties of a value, which are also what a spread copies. -/
def ownEntries : Json → List (Text × Json)
  | .obj kvs => kvs
  | .arr xs => xs.zipIdx.map fun x ↦ (ofChars (Nat.toDigits 10 x.2), x.1)
  | .str s => s.zipIdx.map fun u ↦ (ofChars (Nat.toDigits 10 u.2), .str [u.1])
  | _ => []

@[simp] theorem ownEntries_obj (kvs : List (Text × Json)) : ownEntries (.obj kvs) = kvs := rfl

def property (v : Json) (name : String) : Json :=
  ((ownEntries v).lookup (ofString name)).getD .undefined

/-- The number 1. -/
def one : Number := .ofNat 1

/-! ## The file -/

inductive SecretStoreError where
  | ioError
  | decryptFailed
  /-- A `TypeError` of the language, which is not caught. -/
  | typeError
deriving DecidableEq, Repr

/-- What the file holds, as `JSON.parse` reads it. -/
inductive SecretFile where
  | absent
  | garbled
  | parsed (v : Json)

/-- The iv, the tag and the data of a ciphertext. -/
structure Ciphertext where
  iv : List UInt8
  tag : List UInt8
  data : List UInt8
deriving DecidableEq, Repr

/-- An `EncryptedEntry`. -/
def Ciphertext.entry (c : Ciphertext) : Json :=
  .obj [(ofString "iv", .str (toBase64 c.iv)), (ofString "tag", .str (toBase64 c.tag)),
    (ofString "data", .str (toBase64 c.data))]

/-- `#read`. Without a file the salt is a fresh one. -/
def SecretFile.read (salt : List UInt8) : SecretFile → Except SecretStoreError Json
  | .absent =>
    .ok (.obj [(ofString "version", .num one), (ofString "salt", .str (toBase64 salt)),
      (ofString "entries", .obj [])])
  | .garbled => .error .ioError
  | .parsed v =>
    match property v "version" with
    | .num n => if n = one then .ok v else .error .ioError
    | _ => .error .ioError

/-- `{ ...file, entries }`. -/
def withEntries (file : Json) (entries : List (Text × Json)) : SecretFile :=
  .parsed (.obj (Assoc.alter (ofString "entries") (fun _ ↦ .obj entries) (ownEntries file)))

/-! ## The backend -/

section Backend

variable (p : Platform) (masterKey : Text)

def derived (file : Json) : Option (List UInt8) :=
  (p.toBytes (property file "salt")).map (p.scryptSync masterKey)

/-- The ciphertext that an entry denotes. -/
def ciphertext (entry : Json) : Option Ciphertext := do
  let iv ← p.toBytes (property entry "iv")
  let tag ← p.toBytes (property entry "tag")
  let data ← p.toBytes (property entry "data")
  return ⟨iv, tag, data⟩

def decipherEntry (key : List UInt8) (entry : Json) : Option (List UInt8) :=
  (ciphertext p entry).bind fun c ↦ p.decipher key c.iv c.tag c.data

/-- The salt and the iv are drawn. -/
def set (file : SecretFile) (salt iv : List UInt8) (k value : Text) :
    Except SecretStoreError (SecretFile × List UInt8 × Ciphertext) :=
  match file.read salt with
  | .error e => .error e
  | .ok file =>
    match derived p masterKey file with
    | none => .error .typeError
    | some key =>
      let enciphered := p.encipher key iv (bytes value)
      let c : Ciphertext := ⟨iv, enciphered.2, enciphered.1⟩
      .ok (withEntries file
        (Assoc.alter k (fun _ ↦ c.entry) (ownEntries (property file "entries"))), key, c)

/-- What was deciphered. Where that fails, nothing of it is returned. -/
def deciphered : Option (List UInt8) → Except SecretStoreError (Option Text)
  | none => .error .decryptFailed
  | some plain => .ok (some (ofChars (Utf8.decode plain)))

/-- `get`, where something stands under the key. -/
def getEntry (file entry : Json) : Except SecretStoreError (Option Text) :=
  match entry with
  | .undefined => .ok none
  | entry =>
    match derived p masterKey file with
    | none => .error .typeError
    | some key => deciphered (decipherEntry p key entry)

def getFrom (file entries : Json) (k : Text) : Except SecretStoreError (Option Text) :=
  match (ownEntries entries).lookup k with
  | none =>
    if p.isInherited entries k then
      -- What is inherited is no entry, and cannot be deciphered.
      .error (if (derived p masterKey file).isSome then .decryptFailed else .typeError)
    else .ok none
  | some entry => getEntry p masterKey file entry

def get (file : SecretFile) (salt : List UInt8) (k : Text) :
    Except SecretStoreError (Option Text) :=
  match file.read salt with
  | .error e => .error e
  | .ok file =>
    match property file "entries" with
    | .undefined | .null => .error .typeError
    | entries => getFrom p masterKey file entries k

def delete (file : SecretFile) (salt : List UInt8) (k : Text) :
    Except SecretStoreError SecretFile :=
  match file.read salt with
  | .error e => .error e
  | .ok parsed =>
    let entries := property parsed "entries"
    let isObject := match entries with
      | .obj _ | .arr _ => true
      | _ => false
    -- `in` is for objects only.
    if !isObject then .error .typeError
    else if !((ownEntries entries).lookup k).isSome && !p.isInherited entries k then .ok file
    else .ok (withEntries parsed ((ownEntries entries).filter fun e ↦ decide (e.1 ≠ k)))

def list (file : SecretFile) (salt : List UInt8) : Except SecretStoreError (List Text) :=
  match file.read salt with
  | .error e => .error e
  | .ok file =>
    match property file "entries" with
    | .undefined | .null => .error .typeError
    | entries => .ok (((ownEntries entries).map Prod.fst).insertionSort fun a b ↦ a ≤ b)

end Backend

/-! ## The store at work -/

/-- A ciphertext that the backend has made, and what for. -/
structure Sealed where
  name : Text
  value : Text
  key : List UInt8
  ciphertext : Ciphertext

structure World where
  file : SecretFile
  /-- What the backend has made. -/
  seals : List Sealed

/-- What changes the file: `get` and `list` leave it as it is. -/
inductive Op where
  | set (k value : Text) (salt iv : List UInt8)
  | delete (k : Text) (salt : List UInt8)
  /-- Somebody without the master key puts something in its place. -/
  | tamper (file : SecretFile)

variable (p : Platform) (masterKey : Text)

def World.step (op : Op) (w : World) : World :=
  match op with
  | .set k value salt iv =>
    match SecretStore.set p masterKey w.file salt iv k value with
    | .error _ => w
    | .ok (file, key, c) => ⟨file, w.seals ++ [⟨k, value, key, c⟩]⟩
  | .delete k salt =>
    match SecretStore.delete p w.file salt k with
    | .error _ => w
    | .ok file => { w with file }
  | .tamper file => { w with file }

def World.new : World := ⟨.absent, []⟩

/-! ## Files -/

section Files

variable {p masterKey} {f : Json} {file file' : SecretFile} {k k' name value : Text}
  {salt iv key : List UInt8} {es : List (Text × Json)} {c : Ciphertext}

theorem lookup_filter (k k' : Text) (es : List (Text × Json)) :
    (es.filter fun e ↦ decide (e.1 ≠ k)).lookup k' = if k' = k then none else es.lookup k' := by
  induction es with
  | nil => exact (ite_self none).symm
  | cons e es ih =>
    rw [List.filter_cons, Assoc.lookup_cons_eq]
    by_cases he : e.1 = k
    · rw [if_neg (by simpa using he), ih]
      split_ifs with hk hk'
      · rfl
      · exact absurd (hk'.trans he) hk
      · rfl
    · rw [if_pos (by simpa using he), Assoc.lookup_cons_eq, ih]
      split_ifs with hk' hk
      · exact absurd (hk'.symm.trans hk) he
      · rfl
      · rfl
      · rfl

/-- The file that is written with other entries. -/
def replaced (f : Json) (es : List (Text × Json)) : Json :=
  .obj (Assoc.alter (ofString "entries") (fun _ ↦ .obj es) (ownEntries f))

theorem property_replaced (n : String) (h : ofString n ≠ ofString "entries") :
    property (replaced f es) n = property f n := by
  rw [property, property, replaced]
  change ((Assoc.alter _ _ _).lookup _).getD _ = _
  rw [Assoc.lookup_alter, if_neg h]

theorem property_replaced_entries : property (replaced f es) "entries" = .obj es := by
  rw [property, replaced]
  change ((Assoc.alter _ _ _).lookup _).getD _ = _
  rw [Assoc.lookup_alter, if_pos rfl]
  rfl

theorem derived_replaced : derived p masterKey (replaced f es) = derived p masterKey f := by
  rw [derived, property_replaced _ (by decide), derived]

theorem read_parsed_iff : (SecretFile.parsed f).read salt = .ok f ↔
    property f "version" = .num one := by
  rw [SecretFile.read]
  constructor
  · intro h
    split at h
    · next n hn =>
      split_ifs at h with hone
      rw [hn, hone]
    · cases h
  · intro h
    rw [h]
    exact if_pos rfl

theorem version_of_read (h : file.read salt = .ok f) : property f "version" = .num one := by
  cases file with
  | absent =>
    obtain rfl := Except.ok.inj h
    rfl
  | garbled => cases h
  | parsed v =>
    rw [SecretFile.read] at h
    split at h
    · next n hn =>
      split_ifs at h with hone
      obtain rfl := Except.ok.inj h
      rw [hn, hone]
    · cases h

/-- What is written can be read. -/
theorem read_withEntries (h : file.read salt = .ok f) (salt' : List UInt8) :
    (withEntries f es).read salt' = .ok (replaced f es) :=
  read_parsed_iff.mpr ((property_replaced _ (by decide)).trans (version_of_read h))

@[simp] theorem ciphertext_entry : ciphertext p c.entry = some c := by
  have hiv : property c.entry "iv" = .str (toBase64 c.iv) := rfl
  have htag : property c.entry "tag" = .str (toBase64 c.tag) := rfl
  have hdata : property c.entry "data" = .str (toBase64 c.data) := rfl
  rw [ciphertext, hiv, htag, hdata]
  simp only [Platform.toBytes, fromBase64_toBase64]
  rfl

theorem getEntry_of_ciphertext {entry : Json} (hkey : derived p masterKey f = some key)
    (hc : ciphertext p entry = some c) :
    getEntry p masterKey f entry = deciphered (p.decipher key c.iv c.tag c.data) := by
  have hdecipher : decipherEntry p key entry = p.decipher key c.iv c.tag c.data := by
    rw [decipherEntry, hc, Option.bind_some]
  cases entry with
  | undefined => cases hc
  | _ => rw [getEntry, hkey, ← hdecipher] <;> exact fun h ↦ (by cases h)

end Files

end QwenHarness.SecretStore
