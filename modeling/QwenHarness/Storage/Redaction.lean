import QwenHarness.Codec.Value

/-!
# Redaction

Redaction runs at the storage boundary: every payload goes through `redactValue` before it is
written. What a redactor does to a text is a parameter here, because it depends on the secrets it
was given; the walk over values, object keys included, is the source's. The one thing that is used
of the text part is that each replacement it can make writes the marker `[REDACTED]`, so a text
that was changed holds a bracket.
-/

namespace QwenHarness

open Codec

def redactedMarker : String := "[REDACTED]"

/-- What a redactor does to a text. -/
structure Redactor where
  redact : String → String
  marks : ∀ s, redact s = s ∨ '[' ∈ (redact s).toList

/-- A field with one of these names is redacted wholesale, in any letter case. -/
def sensitiveKeys : List String :=
  ["authorization", "apikey", "api_key", "api-key", "accesstoken", "access_token", "access-token",
    "refreshtoken", "refresh_token", "refresh-token", "clientsecret", "client_secret",
    "client-secret", "password", "secret", "token", "cookie", "set-cookie"]

def sensitiveKey (k : String) : Bool := decide (k.toLower ∈ sensitiveKeys)

/-- `out[k] = v`: a key that is there keeps its place and takes the new value. -/
def setKey (k : String) (v : Value) : List (String × Value) → List (String × Value)
  -- Assigning to `__proto__` gives the object no field of that name.
  | [] => if k = "__proto__" then [] else [(k, v)]
  | (k', v') :: kvs => if k' = k then (k', v) :: kvs else (k', v') :: setKey k v kvs

def isText : Value → Bool
  | .str _ => true
  | _ => false

namespace Redactor

variable (r : Redactor)

mutual

/-- Redact a value deeply, the text of its keys included. -/
def redactValue : Value → Value
  | .str s => .str (r.redact s)
  | .arr xs => .arr (redactValues xs)
  | .obj kvs => .obj (redactEntries kvs [])
  | v => v

def redactValues : List Value → List Value
  | [] => []
  | x :: xs => redactValue x :: redactValues xs

def redactEntries : List (String × Value) → List (String × Value) → List (String × Value)
  | [], out => out
  | (k, v) :: kvs, out =>
    redactEntries kvs <| setKey (r.redact k)
      (if sensitiveKey k && isText v then .str redactedMarker else redactValue v) out

end

/-- The redactor that was given no secrets, on texts without credential material. -/
def none : Redactor := ⟨id, fun _ ↦ .inl rfl⟩

/-! ## What redaction leaves -/

/-- A text without a bracket is what it was before. -/
theorem redact_eq_of_clean {s t : String} (h : r.redact s = t) (ht : '[' ∉ t.toList) : s = t := by
  rcases r.marks s with he | he
  · exact he.symm.trans h
  · exact absurd (h ▸ he) ht

/-- What becomes of the value under a key. -/
def redactField (k : String) (v : Value) : Value :=
  if sensitiveKey k && isText v then .str redactedMarker else r.redactValue v

theorem redactField_str {k : String} (hk : sensitiveKey k = false) (s : String) :
    r.redactField k (.str s) = .str (r.redact s) := by
  rw [redactField, hk, Bool.false_and, if_neg Bool.false_ne_true, redactValue]

theorem redactField_bool (k : String) (b : Bool) : r.redactField k (.bool b) = .bool b := by
  simp [redactField, isText, redactValue]

theorem redactField_obj (k : String) (kvs : List (String × Value)) :
    r.redactField k (.obj kvs) = .obj (r.redactEntries kvs []) := by
  simp [redactField, isText, redactValue]

theorem lookup_setKey {k n : String} {v w : Value} {kvs : List (String × Value)}
    (h : (setKey k v kvs).lookup n = some w) : (k = n ∧ v = w) ∨ kvs.lookup n = some w := by
  induction kvs with
  | nil =>
    rw [setKey] at h
    split at h
    · cases h
    · rw [List.lookup_cons] at h
      split at h
      · rename_i hb
        exact .inl ⟨(beq_iff_eq.mp hb).symm, Option.some.inj h⟩
      · cases h
  | cons kv kvs ih =>
    obtain ⟨k', v'⟩ := kv
    rw [setKey] at h
    split at h
    · rename_i hk
      rw [List.lookup_cons] at h ⊢
      split at h
      · rename_i hb
        exact .inl ⟨hk.symm.trans (beq_iff_eq.mp hb).symm, Option.some.inj h⟩
      · exact .inr h
    · rw [List.lookup_cons] at h ⊢
      split at h
      · exact .inr h
      · exact ih h

/-- What stands under a key without a bracket stood there before, itself redacted. -/
theorem lookup_redactEntries {n : String} (hn : '[' ∉ n.toList) {w : Value}
    {kvs out : List (String × Value)} (h : (r.redactEntries kvs out).lookup n = some w) :
    (∃ v, (n, v) ∈ kvs ∧ w = r.redactField n v) ∨ out.lookup n = some w := by
  induction kvs generalizing out with
  | nil =>
    rw [redactEntries] at h
    exact .inr h
  | cons kv kvs ih =>
    obtain ⟨k, v⟩ := kv
    rw [redactEntries] at h
    rcases ih h with ⟨v', hv', hw⟩ | h
    · exact .inl ⟨v', List.mem_cons_of_mem _ hv', hw⟩
    · rcases lookup_setKey h with ⟨hk, hw⟩ | h
      · have hkn := r.redact_eq_of_clean hk hn
        exact .inl ⟨v, hkn ▸ List.mem_cons_self, hw ▸ hkn ▸ rfl⟩
      · exact .inr h

end Redactor

end QwenHarness
