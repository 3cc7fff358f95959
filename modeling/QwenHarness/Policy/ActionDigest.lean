import Mathlib.Data.String.Basic
import QwenHarness.Policy.CanonicalJson
import QwenHarness.Policy.RuleGrants

/-!
# The digest of an action

An action is a value, and the text its digest hashes is the canonical text of that value. So the
digest of an action belongs to that action alone, as far as the hash has no collisions.
-/

namespace QwenHarness.Policy

open Codec Utf16

/-! ## The text of an action -/


theorem ofChars_append (cs ds : List Char) : ofChars (cs ++ ds) = ofChars cs ++ ofChars ds :=
  List.flatMap_append

theorem ofChars_cons (c : Char) (cs : List Char) : ofChars (c :: cs) = ofChar c ++ ofChars cs :=
  List.flatMap_cons

theorem ofChar_of_lt {c : Char} (h : c.toNat < 0x10000) : ofChar c = [Fin.ofNat _ c.toNat] :=
  if_pos h

/-- A character is spelled in a string like its unit. -/
theorem ofChars_jsonChar {c : Char} (h : c.toNat < 0x10000)
    (hs : ¬(0xD800 ≤ c.toNat ∧ c.toNat < 0xE000)) :
    ofChars (jsonChar c) = quoteUnit (Fin.ofNat _ c.toNat) := by
  have hval : (Fin.ofNat 65536 c.toNat).val = c.toNat := Nat.mod_eq_of_lt h
  by_cases hlow : c.toNat < 0x20
  · have hall : ∀ n : Fin 0x20,
        ofChars (jsonChar (Char.ofNat n)) = quoteUnit (Fin.ofNat _ n) := by decide
    have := hall ⟨c.toNat, hlow⟩
    rwa [Char.ofNat_toNat] at this
  · by_cases hq : c = '"' ∨ c = '\\'
    · rcases hq with rfl | rfl <;> decide
    · rw [not_or] at hq
      have hne (d : Char) (hd : c ≠ d) : c.toNat ≠ d.toNat := fun h ↦ hd (Char.toNat_inj.mp h)
      have hjson : jsonChar c = [c] := by
        rw [jsonChar, if_neg hq.1, if_neg hq.2, if_neg (by omega), if_neg (by omega),
          if_neg (by omega), if_neg (by omega), if_neg (by omega), if_neg hlow]
      have hkeys : ∀ e ∈ shortEscapes, e.1.val = 0x22 ∨ e.1.val = 0x5C ∨ e.1.val < 0x20 := by
        simp [shortEscapes, quotationMark, reverseSolidus]
      have hlook : shortEscapes.lookup (Fin.ofNat 65536 c.toNat) = none := by
        rw [List.lookup_eq_none_iff]
        intro e he
        refine bne_iff_ne.mpr fun heq ↦ ?_
        have h22 : c.toNat ≠ 0x22 := hne '"' hq.1
        have h5C : c.toNat ≠ 0x5C := hne '\\' hq.2
        have := hkeys e he
        rw [← heq, hval] at this
        omega
      rw [hjson, ofChars, List.flatMap_singleton, ofChar_of_lt h, quoteUnit, hlook]
      have hplain : (decide ((Fin.ofNat 65536 c.toNat).val < 0x20) ||
          isHigh (Fin.ofNat 65536 c.toNat) || isLow (Fin.ofNat 65536 c.toNat)) = false := by
        simp only [isHigh, isLow, hval, Bool.or_eq_false_iff, decide_eq_false_iff_not]
        omega
      simp only [hplain]
      rfl

theorem quoteUnits_cons {u : CodeUnit} (h : isHigh u = false) (t : Text) :
    quoteUnits (u :: t) = quoteUnit u ++ quoteUnits t := by
  rcases t with - | ⟨v, t⟩
  · rw [quoteUnits, quoteUnits, List.append_nil]
  · rw [quoteUnits, h, Bool.false_and, if_neg Bool.false_ne_true]

theorem ofChars_flatMap_jsonChar (cs : List Char) :
    ofChars (cs.flatMap jsonChar) = quoteUnits (ofChars cs) := by
  induction cs with
  | nil => rfl
  | cons c cs ih =>
    have hc := not_surrogate c
    rw [List.flatMap_cons, ofChars_append, ofChars_cons, ih]
    by_cases hlt : c.toNat < 0x10000
    · have hhigh : isHigh (Fin.ofNat 65536 c.toNat) = false := by
        have hval : (Fin.ofNat 65536 c.toNat).val = c.toNat := Nat.mod_eq_of_lt hlt
        rw [isHigh, hval, decide_eq_false_iff_not]
        omega
      rw [ofChars_jsonChar hlt (by omega), ofChar_of_lt hlt, List.singleton_append,
        quoteUnits_cons hhigh]
    · have hval : (Fin.ofNat 65536 (0xD800 + (c.toNat - 0x10000) / 0x400)).val =
          0xD800 + (c.toNat - 0x10000) / 0x400 := Nat.mod_eq_of_lt (by omega)
      have hval' : (Fin.ofNat 65536 (0xDC00 + (c.toNat - 0x10000) % 0x400)).val =
          0xDC00 + (c.toNat - 0x10000) % 0x400 := Nat.mod_eq_of_lt (by omega)
      have hpair : (isHigh (Fin.ofNat 65536 (0xD800 + (c.toNat - 0x10000) / 0x400)) &&
          isLow (Fin.ofNat 65536 (0xDC00 + (c.toNat - 0x10000) % 0x400))) = true := by
        simp only [isHigh, isLow, hval, hval', Bool.and_eq_true, decide_eq_true_eq]
        omega
      have hne (d : Char) (hd : d.toNat < 0x10000) : c ≠ d := by
        rintro rfl
        exact hlt hd
      have hjson : jsonChar c = [c] := by
        rw [jsonChar, if_neg (hne _ (by decide)), if_neg (hne _ (by decide)), if_neg (by omega),
          if_neg (by omega), if_neg (by omega), if_neg (by omega), if_neg (by omega),
          if_neg (by omega)]
      rw [hjson, ofChars, List.flatMap_singleton, ofChar, if_neg hlt, List.cons_append,
        List.singleton_append, List.cons_append, List.singleton_append, quoteUnits, if_pos hpair]

/-- The two spellings of a string agree. -/
theorem ofString_jsonString (s : String) : ofString (jsonString s) = quote (ofString s) := by
  have htext : (String.ofList (s.toList.flatMap jsonChar)).toList = s.toList.flatMap jsonChar :=
    String.toList_ofList
  rw [jsonString, ofString, String.toList_append, String.toList_append, htext, ofChars_append,
    ofChars_append, ofChars_flatMap_jsonChar]
  rfl

theorem ofChars_intercalate (ts : List (List Char)) :
    ofChars ([','].intercalate ts) = [Json.comma].intercalate (ts.map ofChars) := by
  rcases ts with - | ⟨t, ts⟩
  · rfl
  · rw [List.map_cons, intercalate_cons, intercalate_cons, ofChars_append]
    congr 1
    induction ts with
    | nil => rfl
    | cons t' ts ih =>
      rw [List.flatMap_cons, ofChars_append, ih, List.map_cons, List.flatMap_cons]
      rfl

theorem ofString_injective : Function.Injective ofString := by
  intro s t h
  have hchars := congrArg toChars h
  rw [ofString, ofString, toChars_ofChars, toChars_ofChars] at hchars
  exact String.toList_inj.mp hchars

/-- The value of a field as a JSON value. -/
def FieldValue.toJson : FieldValue → Json
  | text s => .str (ofString s)
  | flag b => .bool b
  | number n => .num (Number.ofNat n)
  | texts ss => .arr (ss.map fun s ↦ .str (ofString s))

/-- An action as a JSON value. -/
def NormalizedAction.toJson (a : NormalizedAction) : Json :=
  .obj (a.entries.map fun e ↦ (ofString e.1, e.2.toJson))

theorem FieldValue.ofString_json (v : FieldValue) :
    ofString v.json = Json.canonicalJson v.toJson := by
  cases v with
  | text s => exact ofString_jsonString s
  | flag b => cases b <;> rfl
  | number n => rw [json, ofString, String.toList_ofList]; rfl
  | texts ss =>
    have hitems : (ss.map jsonString).map (fun s ↦ ofChars s.toList) =
        (ss.map fun s ↦ Json.str (ofString s)).map Json.canonicalJson := by
      rw [List.map_map, List.map_map]
      refine List.map_congr_left fun s _ ↦ ?_
      rw [Function.comp_apply, Function.comp_apply, Json.canonicalJson, ← ofString_jsonString,
        ofString]
    rw [json, ofString, String.toList_append, String.toList_append, ofChars_append, ofChars_append,
      String.toList_intercalate]
    rw [toJson, Json.canonicalJson, Json.canonicalItems_eq, ← hitems]
    have hcomma : ",".toList = [','] := rfl
    rw [hcomma, ofChars_intercalate, List.map_map]
    rfl

/-- The keys of actions. -/
def actionKeys : List String :=
  ["kind", "path", "createsExecutable", "contentDigest", "editsDigest", "paths", "patchDigest",
    "command", "argv", "cwd", "repoRoot", "operation", "destructive", "method", "url", "host",
    "port", "scheme", "server", "tool", "sideEffect", "argumentsDigest"]

def actionChars : { table : List (List Char) // actionKeys.map String.toList = table } := by
  apply Subtype.mk
  unfold actionKeys
  repeat' first
    | with_reducible apply toList_eq; rfl
    | with_reducible apply map_toList_cons
    | with_reducible exact List.map_nil

/-- The keys come in one order, whether characters are compared or units. -/
theorem actionKeys_le : ∀ k ∈ actionKeys, ∀ k' ∈ actionKeys,
    (k ≤ k' ↔ ofString k ≤ ofString k') := by
  have hchars : ∀ cs ∈ actionChars.val, ∀ ds ∈ actionChars.val,
      (cs ≤ ds ↔ ofChars cs ≤ ofChars ds) := by decide
  rw [← actionChars.property] at hchars
  intro k hk k' hk'
  rw [String.le_iff_toList_le]
  exact hchars _ (List.mem_map_of_mem hk) _ (List.mem_map_of_mem hk')

namespace NormalizedAction

variable {a b : NormalizedAction}

theorem key_mem (a : NormalizedAction) : ∀ e ∈ a.entries, e.1 ∈ actionKeys := by
  cases a <;> simp [entries, actionKeys]

theorem nodup_keys (a : NormalizedAction) : (a.entries.map Prod.fst).Nodup := by
  cases a <;> simp [entries]

theorem isUndefined_toJson (v : FieldValue) : v.toJson.isUndefined = false := by
  cases v <;> rfl

theorem isJson_fieldValue (v : FieldValue) : v.toJson.IsJson := by
  cases v with
  | texts ss =>
    rw [FieldValue.toJson, Json.IsJson, Json.isJsonItems_iff]
    exact List.forall_mem_map.mpr fun _ _ ↦ trivial
  | _ => exact trivial

theorem defined_entries (a : NormalizedAction) :
    Json.defined (a.entries.map fun e ↦ (ofString e.1, e.2.toJson)) =
      a.entries.map fun e ↦ (ofString e.1, e.2.toJson) := by
  refine List.filter_eq_self.mpr (List.forall_mem_map.mpr fun e _ ↦ ?_)
  rw [isUndefined_toJson]
  rfl

theorem isJson_toJson (a : NormalizedAction) : a.toJson.IsJson := by
  rw [toJson, Json.IsJson, Json.isJsonEntries_iff, defined_entries]
  refine ⟨?_, List.forall_mem_map.mpr fun e _ ↦ isJson_fieldValue e.2⟩
  rw [List.map_map]
  have hkeys := a.nodup_keys.map ofString_injective
  rwa [List.map_map] at hkeys

/-- **The text of an action is the canonical text of the action as a value.** -/
theorem ofString_canonicalJson (a : NormalizedAction) :
    ofString (canonicalJson a.entries) = Json.canonicalJson a.toJson := by
  have hsort : Json.sorted (a.entries.map fun e ↦ (ofString e.1, e.2.toJson)) =
      (a.entries.insertionSort fun x y ↦ x.1 ≤ y.1).map
        fun e ↦ (ofString e.1, e.2.toJson) := by
    rw [Json.sorted, defined_entries]
    have hle : ∀ x ∈ a.entries, ∀ y ∈ a.entries, (x.1 ≤ y.1 ↔ ofString x.1 ≤ ofString y.1) :=
      fun x hx y hy ↦ actionKeys_le _ (a.key_mem x hx) _ (a.key_mem y hy)
    exact (List.map_insertionSort (fun x y : String × FieldValue ↦ x.1 ≤ y.1)
      (fun x y : Text × Json ↦ x.1 ≤ y.1) _ _ hle).symm
  rw [toJson, Json.canonicalJson_obj, hsort, canonicalJson, ofString, String.toList_append,
    String.toList_append, ofChars_append, ofChars_append, String.toList_intercalate]
  have hcomma : ",".toList = [','] := rfl
  rw [hcomma, ofChars_intercalate, List.map_map, List.map_map, List.map_map]
  have hmember (e : String × FieldValue) :
      ofChars (jsonString e.1 ++ ":" ++ e.2.json).toList =
        Json.member (ofString e.1, e.2.toJson) := by
    rw [String.toList_append, String.toList_append, ofChars_append, ofChars_append]
    have hkey : ofChars (jsonString e.1).toList = quote (ofString e.1) := ofString_jsonString e.1
    have hvalue : ofChars e.2.json.toList = Json.canonicalJson e.2.toJson := e.2.ofString_json
    rw [hkey, hvalue, List.append_assoc]
    rfl
  have hmap : (a.entries.insertionSort fun x y ↦ x.1 ≤ y.1).map
        ((ofChars ∘ String.toList) ∘ fun e ↦ jsonString e.1 ++ ":" ++ e.2.json) =
      (a.entries.insertionSort fun x y ↦ x.1 ≤ y.1).map
        (Json.member ∘ fun e ↦ (ofString e.1, e.2.toJson)) :=
    List.map_congr_left fun e _ ↦ by
      rw [Function.comp_apply, Function.comp_apply, Function.comp_apply, ← hmember e]
  rw [← hmap]
  rfl

theorem eq_of_same {v w : FieldValue} (h : v.toJson.Same w.toJson) : v = w := by
  cases v <;> cases w <;> simp only [FieldValue.toJson, Json.Same] at h
  · rw [ofString_injective h]
  · rw [h]
  · rw [Number.ofNat_injective h]
  · rw [Json.sameItems_iff, List.forall₂_map_left_iff, List.forall₂_map_right_iff] at h
    have heq : ∀ s t : String, (Json.str (ofString s)).Same (.str (ofString t)) → s = t :=
      fun s t h ↦ ofString_injective h
    have hall := List.Forall₂.imp heq h
    rw [List.forall₂_eq_eq_eq] at hall
    rw [hall]

/-- Actions that are the same value have the same entries. -/
theorem entries_subset (h : a.toJson.Same b.toJson) : ∀ e ∈ a.entries, e ∈ b.entries := by
  rw [toJson, toJson, Json.Same, Json.sameEntries_iff, defined_entries, defined_entries] at h
  intro e he
  obtain ⟨w, hw, hsame⟩ := h.2 _ (List.mem_map_of_mem he)
  obtain ⟨e', he', heq⟩ := List.mem_map.mp hw
  obtain ⟨hk, rfl⟩ := Prod.mk.inj heq
  have hk' : e' = e := Prod.ext (ofString_injective hk) (eq_of_same hsame).symm
  rwa [← hk']

theorem GitReadOperation.name_injective : Function.Injective GitReadOperation.name := by
  intro x y h
  cases x <;> cases y <;> first | rfl | exact absurd h (by decide)

theorem mem_kind (a : NormalizedAction) : ("kind", .text a.kind.name) ∈ a.entries := by
  cases a <;> simp [entries, kind, ActionKind.name]

theorem eq_of_mem_kind {v : FieldValue} (h : ("kind", v) ∈ a.entries) : v = .text a.kind.name := by
  cases a <;> simpa [entries, kind, ActionKind.name] using h

theorem name_injective {k k' : ActionKind} (h : k.name = k'.name) : k = k' := by
  cases k <;> cases k' <;> first | rfl | exact absurd h (by decide)

theorem eq_of_entries (h : ∀ e ∈ a.entries, e ∈ b.entries) : a = b := by
  have hkind : a.kind = b.kind :=
    name_injective (FieldValue.text.inj (eq_of_mem_kind (h _ a.mem_kind)))
  cases a <;> cases b <;> cases hkind <;>
    simpa [entries, GitReadOperation.name_injective.eq_iff] using h

end NormalizedAction

/-- With a hash free of collisions a digest names one action. -/
theorem actionDigest_eq_iff {sys : Platform} (hsha : Function.Injective sys.sha256)
    {a b : NormalizedAction} : actionDigest sys a = actionDigest sys b ↔ a = b := by
  constructor
  · intro h
    have htext : a.toJson.canonicalJson = b.toJson.canonicalJson := by
      rw [← a.ofString_canonicalJson, ← b.ofString_canonicalJson, hsha h]
    have hsame := (Json.canonicalJson_eq_iff a.isJson_toJson b.isJson_toJson).mp htext
    exact NormalizedAction.eq_of_entries (NormalizedAction.entries_subset hsame)
  · rintro rfl
    rfl

/-- **The canonical text tells the value.** It is the same for two JSON values exactly if they are
equal up to the order of keys. With a hash free of collisions the digests tell values apart, and the
digest of an action belongs to that action alone. -/
theorem canonicalJson_tells :
    (∀ x y : Json, x.IsJson → y.IsJson → (x.canonicalJson = y.canonicalJson ↔ x.Same y)) ∧
    (∀ sha256 : List UInt8 → String, Function.Injective sha256 → ∀ x y : Json, x.IsJson →
      y.IsJson → (x.digest sha256 = y.digest sha256 ↔ x.Same y)) ∧
    ∀ sys : Platform, Function.Injective sys.sha256 → ∀ a b : NormalizedAction,
      actionDigest sys a = actionDigest sys b ↔ a = b :=
  ⟨fun _ _ hx hy ↦ Json.canonicalJson_eq_iff hx hy,
    fun _ hsha _ _ hx hy ↦ Json.digest_eq_iff hsha hx hy,
    fun _ hsha _ _ ↦ actionDigest_eq_iff hsha⟩

/-! ### A hash to try things with -/

/-- Two orders of one object. -/
private def oneOrder : Json :=
  .obj [(ofString "a", .num .zero), (ofString "b", .arr [.null])]

private def otherOrder : Json :=
  .obj [(ofString "b", .arr [.null]), (ofString "c", .undefined), (ofString "a", .num .zero)]

private theorem oneOrder_same : oneOrder.Same otherOrder := by
  rw [oneOrder, otherOrder, Json.Same, Json.sameEntries_iff]
  refine ⟨fun k ↦ (List.Perm.swap (ofString "b") (ofString "a") []).mem_iff, fun e he ↦ ?_⟩
  rcases List.mem_cons.mp he with rfl | he
  · exact ⟨.num .zero, List.mem_cons_of_mem _ List.mem_cons_self, rfl⟩
  · obtain rfl := List.mem_singleton.mp he
    exact ⟨.arr [.null], List.mem_cons_self, trivial, trivial⟩

/-- The hash of the canonical text of `oneOrder`, and for other bytes the bytes themselves. -/
private def hashOfBytes (bs : List UInt8) : String :=
  if bs = bytes oneOrder.canonicalJson then
    "15fcfae90bc87510f507044daf65e1f28d13a3384aa23c8cc1929d41b1a75b20"
  else String.ofList ('x' :: bs.map fun b ↦ Char.ofNat b.toNat)

private theorem hashOfBytes_injective : Function.Injective hashOfBytes := by
  have hchar : Function.Injective fun b : UInt8 ↦ Char.ofNat b.toNat := by
    intro b c h
    have hvalid (d : UInt8) : d.toNat.isValidChar := .inl (by have := d.toNat_lt; omega)
    have hnat := congrArg Char.toNat h
    rw [toNat_ofNat_of_isValid (hvalid b), toNat_ofNat_of_isValid (hvalid c)] at hnat
    exact UInt8.toNat_inj.mp hnat
  have hhead (bs : List UInt8) :
      "15fcfae90bc87510f507044daf65e1f28d13a3384aa23c8cc1929d41b1a75b20" ≠
      String.ofList ('x' :: bs.map fun b ↦ Char.ofNat b.toNat) := by
    intro h
    have := congrArg (fun s ↦ s.toList.head?) h
    simp only [String.toList_ofList, List.head?_cons] at this
    exact absurd this (by decide)
  intro bs cs h
  unfold hashOfBytes at h
  split_ifs at h with hb hc hc
  · rw [hb, hc]
  · exact absurd h (hhead cs)
  · exact absurd h.symm (hhead bs)
  · exact hchar.list_map (List.cons.inj (String.ofList_injective h)).2

/-- The hash of the text of the example request, and for other texts the text itself. -/
private def hashOfText (text : String) : String :=
  if text = canonicalJson exampleRequest.entries then
    "0a04efb62d61fa84dfad3c6a427c5e3a79e920df08ae2408536e0f310c30ca3f"
  else "x" ++ text

private theorem hashOfText_injective : Function.Injective hashOfText := by
  have hhead (t : String) :
      "0a04efb62d61fa84dfad3c6a427c5e3a79e920df08ae2408536e0f310c30ca3f" ≠ "x" ++ t := by
    intro h
    have := congrArg String.toList h
    rw [String.toList_append] at this
    exact absurd (List.cons.inj this).1 (by decide)
  intro s t h
  unfold hashOfText at h
  split_ifs at h with hs ht ht
  · rw [hs, ht]
  · exact absurd h (hhead t)
  · exact absurd h.symm (hhead s)
  · have := congrArg String.toList h
    rw [String.toList_append, String.toList_append] at this
    exact String.toList_inj.mp (List.append_cancel_left this)

/-- The order of keys does not show, and two requests have two digests. -/
theorem canonicalJson_tells_example :
    oneOrder.digest hashOfBytes = otherOrder.digest hashOfBytes ∧
      actionDigest ⟨hashOfText, id, id⟩ exampleRequest ≠
        actionDigest ⟨hashOfText, id, id⟩ metadataRequest := by
  obtain ⟨-, hvalues, hactions⟩ := canonicalJson_tells
  have hab : ofString "a" ≠ ofString "b" := by decide
  have hbc : ofString "b" ≠ ofString "c" := by decide
  have hca : ofString "c" ≠ ofString "a" := by decide
  constructor
  · refine (hvalues hashOfBytes hashOfBytes_injective oneOrder otherOrder ?_ ?_).mpr ?_
    · simp [oneOrder, Json.IsJson, Json.IsJsonEntries, Json.IsJsonItems, hab]
    · simp [otherOrder, Json.IsJson, Json.IsJsonEntries, Json.IsJsonItems, Json.isUndefined, hbc,
        hca, hab.symm]
    · exact oneOrder_same
  · intro h
    have heq := (hactions ⟨hashOfText, id, id⟩ hashOfText_injective _ _).mp h
    exact absurd heq (by decide)

end QwenHarness.Policy
