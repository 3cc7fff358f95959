import QwenHarness.Pattern.Masked
import QwenHarness.Policy.CanonicalJson
import QwenHarness.Storage.Redaction

/-!
# Secrets and what redaction does to a text

A redactor scrubs the secrets it was given and their common encodings, and then whatever looks like
credential material. A secret is accepted from eight code units on, but only what has twelve or more
is scrubbed. So a shorter one stays where no pattern happens to cover it. A longer one is gone from
every text and every key, unless it can be put together again with the mark that redaction leaves.
-/

namespace QwenHarness

open Pattern Utf16

/-- `REDACTED`. -/
def marker : Text := ofString redactedMarker

/-! ## Patterns -/

/-- A pattern of credential material. What `lead` and `tail` match stays, what `body` matches is
redacted. -/
structure Rule where
  lead : Regex CodeUnit
  body : Regex CodeUnit
  tail : Regex CodeUnit

namespace Rule

/-- Find a match. It says what stays before and after the marker. -/
def find (rule : Rule) (c : Cursor CodeUnit) : Option (ℕ × (Text × Text)) :=
  rule.lead.run (fun c₁ ↦ rule.body.run (fun c₂ ↦ rule.tail.run (fun c₃ ↦
    some (c.rest.length - c₃.rest.length,
      (c.rest.take (c.rest.length - c₁.rest.length),
        c₂.rest.take (c₂.rest.length - c₃.rest.length)))) c₂) c₁) c

def put (stays : Text × Text) : Text := stays.1 ++ marker ++ stays.2

def replace (rule : Rule) (text : Text) : Text := render put (scan rule.find 0 none text)

end Rule

section Classes

def digit : CodeUnit → Bool := isBetween 0x30 0x39

def upper : CodeUnit → Bool := isBetween 0x41 0x5A

def lower : CodeUnit → Bool := isBetween 0x61 0x7A

def anyOf (s : String) (u : CodeUnit) : Bool := (ofString s).contains u

/-- `[A-Za-z0-9]` with more letters. -/
def alnumOr (s : String) (u : CodeUnit) : Bool := digit u || upper u || lower u || anyOf s u

/-- The letters of `\b`. -/
def wordBoundary : Regex CodeUnit := .boundary (alnumOr "_")

/-- A letter without its case. No letter outside of ASCII has the case of one of ASCII. -/
def foldCase (u : CodeUnit) : CodeUnit := if upper u then u + 0x20 else u

def literal (s : String) : Regex CodeUnit :=
  (ofString s).foldr (fun u r ↦ .seq (.one fun v ↦ decide (v = u)) r) .empty

/-- A literal of lowercase letters in any case. -/
def literalFold (s : String) : Regex CodeUnit :=
  (ofString s).foldr (fun u r ↦ .seq (.one fun v ↦ decide (foldCase v = u)) r) .empty

def optional (r : Regex CodeUnit) : Regex CodeUnit := .alt r .empty

def anyNumber (cls : CodeUnit → Bool) : Regex CodeUnit := .many true 0 none cls

def atLeast (n : ℕ) (cls : CodeUnit → Bool) : Regex CodeUnit := .many true n none cls

def inOrder (rs : List (Regex CodeUnit)) : Regex CodeUnit := rs.foldr .seq .empty

end Classes

/-- `PATTERNS`: credential material wherever it appears. -/
def patterns : List Rule :=
  [ -- `dashscope-key`
    { lead := .empty, tail := .empty
      body := inOrder [wordBoundary, literal "sk-", atLeast 16 (alnumOr "_-"), wordBoundary] },
    -- `github-token`
    { lead := .empty, tail := .empty
      body := inOrder [wordBoundary, literal "gh", .one (anyOf "opusr"), literal "_",
        atLeast 20 (alnumOr ""), wordBoundary] },
    -- `aws-access-key`
    { lead := .empty, tail := .empty
      body := inOrder [wordBoundary, literal "AKIA",
        .many true 16 (some 16) fun u ↦ digit u || upper u, wordBoundary] },
    -- `bearer-header`
    { lead := .empty, tail := .empty
      body := inOrder [wordBoundary, .alt (literalFold "bearer") (literalFold "basic"),
        atLeast 1 isSpace, atLeast 16 (alnumOr "._~+/-"), .many true 0 (some 2) (anyOf "=")] },
    -- `authorization-header`
    { lead := inOrder [optional (literal "\""), literalFold "authorization",
        optional (literal "\""), anyNumber isSpace, .one (anyOf ":="), anyNumber isSpace,
        literal "\""]
      body := atLeast 1 fun u ↦ !anyOf "\"" u
      tail := literal "\"" },
    -- `private-key`
    { lead := .empty, tail := .empty
      body := inOrder [literal "-----BEGIN ", optional (.alt (literal "RSA ") <|
          .alt (literal "EC ") <| .alt (literal "OPENSSH ") (literal "PGP ")),
        literal "PRIVATE KEY-----", .many false 0 none fun _ ↦ true, literal "-----END ",
        anyNumber fun u ↦ !anyOf "-" u, literal "-----"] },
    -- `url-userinfo`
    { lead := inOrder [wordBoundary, .one fun u ↦ lower (foldCase u), anyNumber (alnumOr "+.-"),
        literal "://"]
      body := inOrder [atLeast 1 fun u ↦ !(anyOf "/:@" u || isSpace u), literal ":",
        atLeast 1 fun u ↦ !(anyOf "/@" u || isSpace u)]
      tail := literal "@" },
    -- `api-key-query`
    { lead := inOrder [.one (anyOf "?&"),
        .alt (inOrder [literalFold "api", optional (.one (anyOf "_-")), literalFold "key"]) <|
          .alt (inOrder [literalFold "access", optional (.one (anyOf "_-")), literalFold "token"])
            (literalFold "token"),
        literal "="]
      body := atLeast 1 fun u ↦ !(anyOf "&" u || isSpace u)
      tail := .empty } ]

/-! ## Encodings -/

/-- The sign of six bits. The last two signs are what the two alphabets differ in. -/
def base64Sign (last : CodeUnit × CodeUnit) (n : ℕ) : CodeUnit :=
  if n < 26 then Fin.ofNat _ (0x41 + n)
  else if n < 52 then Fin.ofNat _ (0x61 + (n - 26))
  else if n < 62 then Fin.ofNat _ (0x30 + (n - 52))
  else if n = 62 then last.1 else last.2

/-- Three bytes are four signs. What is missing at the end is filled with the padding. -/
def base64With (last : CodeUnit × CodeUnit) (padding : Text) : List UInt8 → Text
  | a :: b :: c :: rest =>
    [base64Sign last (a.toNat / 4), base64Sign last (a.toNat % 4 * 16 + b.toNat / 16),
      base64Sign last (b.toNat % 16 * 4 + c.toNat / 64), base64Sign last (c.toNat % 64)] ++
      base64With last padding rest
  | [a, b] =>
    [base64Sign last (a.toNat / 4), base64Sign last (a.toNat % 4 * 16 + b.toNat / 16),
      base64Sign last (b.toNat % 16 * 4)] ++ padding
  | [a] => [base64Sign last (a.toNat / 4), base64Sign last (a.toNat % 4 * 16)] ++ padding ++ padding
  | [] => []

def base64 (t : Text) : Text := base64With (0x2B, 0x2F) [0x3D] (bytes t)

def base64url (t : Text) : Text := base64With (0x2D, 0x5F) [] (bytes t)

def hexSign (n : ℕ) : CodeUnit := if n < 10 then Fin.ofNat _ (0x30 + n) else Fin.ofNat _ (0x37 + n)

/-- One character of a component, spelled as it is or by its bytes. -/
def encodeUriChar (c : Char) : Text :=
  if (ofChar c).all (alnumOr "-_.!~*'()") then ofChar c
  else (Utf8.encode [c]).flatMap fun b ↦ [0x25, hexSign (b.toNat / 16), hexSign (b.toNat % 16)]

/-- `encodeURIComponent`. It throws on half of a surrogate pair. -/
def encodeURIComponent (t : Text) : Option Text :=
  if ofChars (toChars t) = t then some ((toChars t).flatMap encodeUriChar) else none

/-- The encodings a secret may leak in. Only those long enough to be unambiguous. -/
def encodedVariants (secret : Text) : Option (List Text) :=
  if secret = [] then some [] else do
    let component ← encodeURIComponent secret
    some <| [secret, base64 secret, base64url secret, component,
      base64 (ofString "Bearer " ++ secret)].eraseDups.filter fun v ↦ 12 ≤ v.length

/-! ## The redactor -/

/-- What a secret is registered as. -/
def acceptedVariants : Option Text → Option (List Text)
  | none => some []
  | some secret => if 8 ≤ secret.length then encodedVariants secret else some []

/-- Register a secret. The literals are kept longest first. -/
def addSecret (literals : List Text) (secret : Option Text) : Option (List Text) :=
  (acceptedVariants secret).map fun variants ↦
    (literals ++ variants).insertionSort fun a b ↦ b.length ≤ a.length

def createRedactor (secrets : List (Option Text)) : Option (List Text) :=
  secrets.foldlM addSecret []

/-- Scrub one literal. -/
def scrub (out literal : Text) : Text :=
  if literal ≠ [] ∧ literal <:+: out then maskAll literal marker out else out

/-- The patterns, after the literals are gone. -/
def applyPatterns (out : Text) : Text := patterns.foldl (fun out rule ↦ rule.replace out) out

def redactText (literals : List Text) (input : Text) : Text :=
  applyPatterns (literals.foldl scrub input)

/-- `SENSITIVE_KEY`. -/
def isSensitiveKey (k : Text) : Bool := (sensitiveKeys.map ofString).contains (k.map foldCase)

/-- `out[k] = v`: a key that is there keeps its place and takes the new value. -/
def setEntry (k : Text) (v : Policy.Json) : List (Text × Policy.Json) → List (Text × Policy.Json)
  -- Assigning to `__proto__` gives the object no field of that name.
  | [] => if k = ofString "__proto__" then [] else [(k, v)]
  | (k', v') :: kvs => if k' = k then (k', v) :: kvs else (k', v') :: setEntry k v kvs

def isString : Policy.Json → Bool
  | .str _ => true
  | _ => false

section Values

variable (literals : List Text)

mutual

/-- Redact a value deeply, the text of its keys included. -/
def redactJson : Policy.Json → Policy.Json
  | .str s => .str (redactText literals s)
  | .arr xs => .arr (redactItems xs)
  | .obj kvs => .obj (redactFields kvs [])
  | v => v

def redactItems : List Policy.Json → List Policy.Json
  | [] => []
  | x :: xs => redactJson x :: redactItems xs

def redactFields : List (Text × Policy.Json) → List (Text × Policy.Json) →
    List (Text × Policy.Json)
  | [], out => out
  | (k, v) :: kvs, out =>
    redactFields kvs <| setEntry (redactText literals k)
      (if isSensitiveKey k && isString v then .str marker else redactJson v) out

end

end Values

/-! ## Every pass masks -/

theorem Rule.hides (rule : Rule) : Hides marker rule.find Rule.put := by
  intro c n stays h
  obtain ⟨c₁, hc₁, h⟩ := Regex.exists_of_run h
  obtain ⟨c₂, hc₂, h⟩ := Regex.exists_of_run h
  obtain ⟨c₃, hc₃, h⟩ := Regex.exists_of_run h
  obtain ⟨lead, hlead⟩ := hc₁
  obtain ⟨part, hpart⟩ := hc₂
  obtain ⟨tail, htail⟩ := hc₃
  cases h
  have hrest : c.rest = lead ++ part ++ tail ++ c₃.rest := by
    rw [← hlead, ← hpart, ← htail, List.append_assoc, List.append_assoc]
  have hwhole : c.rest.take (c.rest.length - c₃.rest.length) = lead ++ part ++ tail := by
    rw [hrest, List.length_append, Nat.add_sub_cancel, List.take_left]
  have hfront : c.rest.take (c.rest.length - c₁.rest.length) = lead := by
    rw [← hlead, List.length_append, Nat.add_sub_cancel, List.take_left]
  have hback : c₂.rest.take (c₂.rest.length - c₃.rest.length) = tail := by
    rw [← htail, List.length_append, Nat.add_sub_cancel, List.take_left]
  rw [hwhole, hfront, hback]
  exact Masked.between lead part tail

theorem Rule.masked_replace (rule : Rule) (text : Text) :
    Masked marker text (rule.replace text) :=
  rule.hides.masked_scan (n := 0)

theorem masked_scrub (out literal : Text) : Masked marker out (scrub out literal) := by
  rw [scrub]
  split
  · exact masked_maskAll out
  · exact .refl out

section Apart

variable {s : Text} {literals : List Text}

theorem not_infix_scrub (h : Apart s marker) (out : Text) : ¬ s <:+: scrub out s := by
  rw [scrub]
  split
  · exact h.not_infix_maskAll out
  · rename_i hnot
    exact fun hin ↦ hnot ⟨h.ne_nil, hin⟩

theorem not_infix_applyPatterns (h : Apart s marker) {out : Text} (hout : ¬ s <:+: out) :
    ¬ s <:+: applyPatterns out := by
  rw [applyPatterns]
  generalize patterns = rules
  induction rules generalizing out with
  | nil => exact hout
  | cons rule rules ih =>
    exact ih fun hin ↦ hout (h.infix_of_masked (rule.masked_replace out) hin)

theorem not_infix_foldl_scrub (h : Apart s marker) {out : Text}
    (hs : s ∈ literals ∨ ¬ s <:+: out) : ¬ s <:+: literals.foldl scrub out := by
  induction literals generalizing out with
  | nil => exact hs.resolve_left List.not_mem_nil
  | cons literal literals ih =>
    refine ih ?_
    rcases hs with hs | hs
    · rcases List.mem_cons.mp hs with rfl | hs
      · exact .inr (not_infix_scrub h out)
      · exact .inl hs
    · exact .inr fun hin ↦ hs (h.infix_of_masked (masked_scrub out literal) hin)

/-- **A literal that is apart from the marker is gone.** -/
theorem not_infix_redactText (h : Apart s marker) (hs : s ∈ literals) (input : Text) :
    ¬ s <:+: redactText literals input :=
  not_infix_applyPatterns h (not_infix_foldl_scrub h (.inl hs))

end Apart

/-! ## The redactor of the store -/

theorem eq_or_marked_foldl {ι : Type} {pass : Text → ι → Text}
    (hpass : ∀ out i, Masked marker out (pass out i)) (l : List ι) (input : Text) :
    l.foldl pass input = input ∨ marker <:+: l.foldl pass input := by
  induction l using List.reverseRecOn with
  | nil => exact .inl rfl
  | append_singleton l i ih =>
    rw [List.foldl_append, List.foldl_cons, List.foldl_nil]
    rcases (hpass (l.foldl pass input) i).eq_or_marked with heq | hmark
    · rwa [heq]
    · exact .inr hmark

/-- A text that was changed shows the marker. -/
theorem redactText_eq_or_marked (literals : List Text) (input : Text) :
    redactText literals input = input ∨ marker <:+: redactText literals input := by
  rcases eq_or_marked_foldl (fun out rule ↦ Rule.masked_replace rule out) patterns
    (literals.foldl scrub input) with heq | hmark
  · rw [redactText, applyPatterns, heq]
    exact eq_or_marked_foldl masked_scrub literals input
  · exact .inr hmark

theorem mem_toChars {u : CodeUnit} {t : Text} (hh : isHigh u = false) (hl : isLow u = false)
    (h : u ∈ t) : single u ∈ toChars t := by
  induction t using toChars.induct with
  | case1 => cases h
  | case2 v => rw [List.mem_singleton.mp h, toChars]; exact List.mem_singleton_self _
  | case3 v w t hpair ih =>
    rw [toChars, if_pos hpair]
    rw [Bool.and_eq_true] at hpair
    rcases List.mem_cons.mp h with rfl | h
    · rw [hh] at hpair
      cases hpair.1
    · rcases List.mem_cons.mp h with rfl | h
      · rw [hl] at hpair
        cases hpair.2
      · exact List.mem_cons_of_mem _ (ih h)
  | case4 v w t hpair ih =>
    rw [toChars, if_neg hpair]
    rcases List.mem_cons.mp h with rfl | h
    · exact List.mem_cons_self
    · exact List.mem_cons_of_mem _ (ih h)

/-- The redactor a store is given, on strings. -/
def Redactor.ofLiterals (literals : List Text) : Redactor where
  redact s := String.ofList (toChars (redactText literals (ofString s)))
  marks s := by
    rcases redactText_eq_or_marked literals (ofString s) with heq | hmark
    · refine .inl ?_
      rw [heq, ofString, toChars_ofChars, String.ofList_toList]
    · refine .inr ?_
      rw [String.toList_ofList]
      have hopen : (0x5B : CodeUnit) ∈ marker := by decide
      exact mem_toChars (by decide) (by decide) (hmark.subset hopen)

/-! ## What is registered -/

theorem mem_encodedVariants {s : Text} {variants : List Text} (hs : 12 ≤ s.length)
    (h : encodedVariants s = some variants) : s ∈ variants := by
  have hne : s ≠ [] := fun hnil ↦ by rw [hnil] at hs; exact absurd hs (by decide)
  rw [encodedVariants, if_neg hne] at h
  obtain ⟨component, -, h⟩ := Option.bind_eq_some_iff.mp h
  rw [← Option.some.inj h]
  exact List.mem_filter.mpr ⟨List.mem_eraseDups.mpr List.mem_cons_self, decide_eq_true hs⟩

theorem length_of_mem_encodedVariants {s v : Text} {variants : List Text}
    (h : encodedVariants s = some variants) (hv : v ∈ variants) : 12 ≤ v.length := by
  rw [encodedVariants] at h
  split at h
  · rw [← Option.some.inj h] at hv
    cases hv
  · obtain ⟨component, -, h⟩ := Option.bind_eq_some_iff.mp h
    rw [← Option.some.inj h] at hv
    exact of_decide_eq_true (List.mem_filter.mp hv).2

theorem mem_addSecret {literals out : List Text} {secret : Option Text}
    (h : addSecret literals secret = some out) :
    ∃ variants, acceptedVariants secret = some variants ∧ ∀ v, v ∈ out ↔ v ∈ literals ∨ v ∈ variants := by
  obtain ⟨variants, hvariants, rfl⟩ := Option.map_eq_some_iff.mp h
  exact ⟨variants, hvariants, fun v ↦
    (List.perm_insertionSort _ _).mem_iff.trans List.mem_append⟩

theorem length_of_mem_acceptedVariants {secret : Option Text} {variants : List Text} {v : Text}
    (h : acceptedVariants secret = some variants) (hv : v ∈ variants) : 12 ≤ v.length := by
  cases secret with
  | none =>
    cases h
    cases hv
  | some s =>
    rw [acceptedVariants] at h
    split at h
    · exact length_of_mem_encodedVariants h hv
    · cases h
      cases hv

/-- The literals are long, and every long secret is one of them. -/
structure Registered (secrets : List (Option Text)) (literals : List Text) : Prop where
  long : ∀ v ∈ literals, 12 ≤ v.length
  mem : ∀ s : Text, some s ∈ secrets → 12 ≤ s.length → s ∈ literals

theorem registered_createRedactor {secrets : List (Option Text)} {literals : List Text}
    (h : createRedactor secrets = some literals) : Registered secrets literals := by
  induction secrets using List.reverseRecOn generalizing literals with
  | nil =>
    cases h
    exact ⟨fun v hv ↦ absurd hv List.not_mem_nil, fun s hs ↦ absurd hs List.not_mem_nil⟩
  | append_singleton secrets secret ih =>
    rw [createRedactor, List.foldlM_append] at h
    obtain ⟨before, hbefore, h⟩ := Option.bind_eq_some_iff.mp h
    rw [List.foldlM_cons] at h
    obtain ⟨after, hafter, h⟩ := Option.bind_eq_some_iff.mp h
    obtain rfl : after = literals := Option.some.inj h
    have hreg := ih hbefore
    obtain ⟨variants, hvariants, hmem⟩ := mem_addSecret hafter
    refine ⟨fun v hv ↦ ?_, fun s hs hlen ↦ ?_⟩
    · exact ((hmem v).mp hv).elim (hreg.long v) (length_of_mem_acceptedVariants hvariants)
    · rw [hmem]
      rcases List.mem_append.mp hs with hs | hs
      · exact .inl (hreg.mem s hs hlen)
      · obtain rfl := List.mem_singleton.mp hs
        rw [acceptedVariants, if_pos (by omega)] at hvariants
        exact .inr (mem_encodedVariants hlen hvariants)

/-! ## Values -/

mutual

/-- Every string and every key in a value. -/
def texts : Policy.Json → List Text
  | .str s => [s]
  | .arr xs => textsOfItems xs
  | .obj kvs => textsOfFields kvs
  | _ => []

def textsOfItems : List Policy.Json → List Text
  | [] => []
  | x :: xs => texts x ++ textsOfItems xs

def textsOfFields : List (Text × Policy.Json) → List Text
  | [] => []
  | (k, v) :: kvs => k :: texts v ++ textsOfFields kvs

end

section Everywhere

variable {P : Text → Prop} {literals : List Text}

theorem forall_textsOfFields_setEntry {k : Text} {v : Policy.Json}
    {kvs : List (Text × Policy.Json)} (hk : P k) (hv : ∀ t ∈ texts v, P t)
    (hkvs : ∀ t ∈ textsOfFields kvs, P t) : ∀ t ∈ textsOfFields (setEntry k v kvs), P t := by
  induction kvs with
  | nil =>
    rw [setEntry]
    split
    · exact hkvs
    · rw [textsOfFields, List.forall_mem_append, List.forall_mem_cons]
      exact ⟨⟨hk, hv⟩, hkvs⟩
  | cons kv kvs ih =>
    obtain ⟨k', v'⟩ := kv
    rw [textsOfFields, List.forall_mem_append, List.forall_mem_cons] at hkvs
    obtain ⟨⟨hk', hv'⟩, hkvs⟩ := hkvs
    rw [setEntry]
    split
    · rw [textsOfFields, List.forall_mem_append, List.forall_mem_cons]
      exact ⟨⟨hk', hv⟩, hkvs⟩
    · rw [textsOfFields, List.forall_mem_append, List.forall_mem_cons]
      exact ⟨⟨hk', hv'⟩, ih hkvs⟩

theorem forall_textsOfItems_redactItems {xs : List Policy.Json}
    (h : ∀ x ∈ xs, ∀ t ∈ texts (redactJson literals x), P t) :
    ∀ t ∈ textsOfItems (redactItems literals xs), P t := by
  induction xs with
  | nil => exact fun t ht ↦ absurd ht List.not_mem_nil
  | cons x xs ih =>
    obtain ⟨hx, hxs⟩ := List.forall_mem_cons.mp h
    rw [redactItems, textsOfItems, List.forall_mem_append]
    exact ⟨hx, ih hxs⟩

theorem forall_textsOfFields_redactFields (hmarker : P marker)
    (hredact : ∀ t, P (redactText literals t)) {kvs out : List (Text × Policy.Json)}
    (h : ∀ e ∈ kvs, ∀ t ∈ texts (redactJson literals e.2), P t)
    (hout : ∀ t ∈ textsOfFields out, P t) :
    ∀ t ∈ textsOfFields (redactFields literals kvs out), P t := by
  induction kvs generalizing out with
  | nil =>
    rw [redactFields]
    exact hout
  | cons kv kvs ih =>
    obtain ⟨k, v⟩ := kv
    obtain ⟨hv, hkvs⟩ := List.forall_mem_cons.mp h
    rw [redactFields]
    refine ih hkvs (forall_textsOfFields_setEntry (hredact k) ?_ hout)
    split
    · rw [texts, List.forall_mem_singleton]
      exact hmarker
    · exact hv

/-- What holds of every redacted text holds in every redacted value. -/
theorem forall_texts_redactJson (hmarker : P marker) (hredact : ∀ t, P (redactText literals t))
    (v : Policy.Json) : ∀ t ∈ texts (redactJson literals v), P t := by
  induction v using Policy.Json.induct with
  | str s =>
    rw [redactJson, texts, List.forall_mem_singleton]
    exact hredact s
  | arr xs ih =>
    rw [redactJson, texts]
    exact forall_textsOfItems_redactItems ih
  | obj kvs ih =>
    rw [redactJson, texts]
    exact forall_textsOfFields_redactFields hmarker hredact ih fun t ht ↦
      absurd ht List.not_mem_nil
  | _ => exact fun t ht ↦ absurd ht List.not_mem_nil

end Everywhere

/-! ## What becomes of a secret -/

/-- A secret that was registered is in no string and no key of what is redacted. -/
def Hidden (secret : Text) (literals : List Text) : Prop :=
  ∀ v : Policy.Json, ∀ t ∈ texts (redactJson literals v), ¬ secret <:+: t

/-- A text too short for every literal is only matched against the patterns. -/
theorem redactText_of_short {literals : List Text} {input : Text}
    (h : ∀ v ∈ literals, input.length < v.length) :
    redactText literals input = applyPatterns input := by
  have hscrub : literals.foldl scrub input = input := by
    induction literals with
    | nil => rfl
    | cons v literals ih =>
      obtain ⟨hv, hrest⟩ := List.forall_mem_cons.mp h
      have hnot : ¬ (v ≠ [] ∧ v <:+: input) := fun hin ↦
        Nat.not_le.mpr hv hin.2.length_le
      rw [List.foldl_cons, scrub, if_neg hnot]
      exact ih hrest
  rw [redactText, hscrub]

/-- **What is scrubbed.** A secret of twelve or more units that is apart from the marker is gone
wherever it stands, whatever else is registered. A shorter one is no literal: it stays in a text of
its own, unless the patterns happen to rewrite it. -/
theorem hidden_of_createRedactor {secrets : List (Option Text)} {literals : List Text}
    {secret : Text} (hcreate : createRedactor secrets = some literals)
    (hsecret : some secret ∈ secrets) :
    (12 ≤ secret.length ∧ Apart secret marker → Hidden secret literals) ∧
      (secret.length < 12 → secret <:+: applyPatterns secret → ¬ Hidden secret literals) := by
  have hreg := registered_createRedactor hcreate
  constructor
  · rintro ⟨hlen, hapart⟩
    exact forall_texts_redactJson hapart.within fun t ↦
      not_infix_redactText hapart (hreg.mem secret hsecret hlen) t
  · intro hlen hstays hhidden
    refine hhidden (.str secret) _ (List.mem_singleton_self _) ?_
    rwa [redactText_of_short fun v hv ↦ hlen.trans_le (hreg.long v hv)]

/-- A password that is scrubbed. -/
def longPassword : Text := ofString "correct horse"

theorem hidden_longPassword : ∃ literals, createRedactor [some longPassword] = some literals ∧
    Hidden longPassword literals := by
  have hsome : (createRedactor [some longPassword]).isSome = true := by decide +kernel
  obtain ⟨literals, hcreate⟩ := Option.isSome_iff_exists.mp hsome
  exact ⟨literals, hcreate, (hidden_of_createRedactor hcreate (List.mem_singleton_self _)).1
    (by decide +kernel)⟩

/-- A password of eight units, which is accepted. -/
def shortPassword : Text := ofString "hunter2!"

/-- It stays. -/
theorem not_hidden_shortPassword : ¬ ∀ (secrets : List (Option Text)) (literals : List Text)
    (secret : Text), createRedactor secrets = some literals → some secret ∈ secrets →
      8 ≤ secret.length → Hidden secret literals := by
  intro h
  have hsome : (createRedactor [some shortPassword]).isSome = true := by decide +kernel
  have hshown : ((createRedactor [some shortPassword]).map fun literals ↦
      decide (shortPassword <:+: redactText literals shortPassword)) = some true := by
    decide +kernel
  obtain ⟨literals, hcreate⟩ := Option.isSome_iff_exists.mp hsome
  rw [hcreate] at hshown
  exact h _ _ _ hcreate (List.mem_singleton_self _) (by decide) (.str shortPassword) _
    (List.mem_singleton_self _) (of_decide_eq_true (Option.some.inj hshown))

/-- A long secret that ends like the marker begins can be put together again. -/
example : ((createRedactor [some (ofString "correct horse[")]).map fun literals ↦
    decide (ofString "correct horse[" <:+:
      redactText literals (ofString "correct horsecorrect horse["))) = some true := by
  decide +kernel

end QwenHarness
