import Mathlib.Data.List.Nodup
import QwenHarness.Codec.Value

/-!
# Schemas

A schema describes a type by the values that denote it: an encoder, a decoder that checks what it
is given, and the predicate that says which elements the checks accept. Its laws are fields, so a
schema built with the combinators below is correct by construction:

* what was encoded decodes to itself (`Schema.dec_enc`), and to nothing else
  (`Schema.eq_of_dec_enc`);
* what decodes was accepted by the checks (`Schema.ok_of_dec`);
* the round trip through JSON text is visible on the typed side (`Schema.enc_json`), as a map
  `json` that only touches the free-form parts.

Objects go through `Fields`, whose decoder sees an object only through key lookup. That makes it
blind to the order of the keys and to keys it does not know, and it is what lets two field lists be
put side by side.
-/

namespace Codec

open Value

/-- A checked, typed reading of values. -/
structure Schema (α : Type) where
  /-- The elements the checks accept. -/
  ok : α → Prop
  enc : α → Value
  dec : Value → Option α
  /-- What an element becomes on the way through JSON text. -/
  json : α → α
  dec_enc : ∀ {a}, ok a → dec (enc a) = some a
  eq_of_dec_enc : ∀ {a b}, dec (enc a) = some b → b = a
  ok_of_dec : ∀ {v a}, dec v = some a → ok a
  enc_json : ∀ a, (enc a).viaJson = enc (json a)
  ok_json : ∀ {a}, ok a → ok (json a)

/-- The named fields of an object. -/
structure Fields (α : Type) where
  names : List String
  ok : α → Prop
  enc : α → List (String × Value)
  dec : (String → Option Value) → Option α
  json : α → α
  enc_names : ∀ a, ∀ k ∉ names, (enc a).lookup k = none
  dec_enc : ∀ {a look}, ok a → (∀ k ∈ names, look k = (enc a).lookup k) → dec look = some a
  eq_of_dec_enc : ∀ {a b look}, (∀ k ∈ names, look k = (enc a).lookup k) → dec look = some b →
    b = a
  ok_of_dec : ∀ {look a}, dec look = some a → ok a
  enc_json : ∀ a, viaJsonEntries (enc a) = enc (json a)
  ok_json : ∀ {a}, ok a → ok (json a)

/-! ## Scalars -/

namespace Schema

/-- A string the check accepts. -/
def string (check : String → Bool) : Schema String where
  ok s := check s = true
  enc := .str
  dec
    | .str s => if check s then some s else none
    | _ => none
  json := id
  dec_enc h := if_pos h
  eq_of_dec_enc h := (Option.some.inj (Option.ite_none_right_eq_some.mp h).2).symm
  ok_of_dec := by
    intro v a h
    split at h
    · split at h
      · cases h; assumption
      · cases h
    · cases h
  enc_json s := viaJson_str s
  ok_json h := h

/-- Any string. -/
def text : Schema String := string fun _ ↦ true

def boolean : Schema Bool where
  ok _ := True
  enc := .bool
  dec
    | .bool b => some b
    | _ => none
  json := id
  dec_enc _ := rfl
  eq_of_dec_enc h := (Option.some.inj h).symm
  ok_of_dec _ := trivial
  enc_json b := viaJson_bool b
  ok_json h := h

/-- A finite number. -/
def number : Schema ℚ where
  ok _ := True
  enc q := .num (.fin q)
  dec
    | .num (.fin q) => some q
    | _ => none
  json := id
  dec_enc _ := rfl
  eq_of_dec_enc h := (Option.some.inj h).symm
  ok_of_dec _ := trivial
  enc_json q := viaJson_fin q
  ok_json h := h

/-- An integer the check accepts. -/
def integer (check : ℤ → Bool) : Schema ℤ where
  ok n := check n = true
  enc := .int
  dec
    | .num (.fin q) => if q.den = 1 ∧ check q.num then some q.num else none
    | _ => none
  json := id
  dec_enc h := if_pos ⟨rfl, h⟩
  eq_of_dec_enc h := (Option.some.inj (Option.ite_none_right_eq_some.mp h).2).symm
  ok_of_dec := by
    intro v a h
    split at h
    · split at h
      · rename_i hc
        cases h
        exact hc.2
      · cases h
    · cases h
  enc_json n := viaJson_int n
  ok_json h := h

/-- One of finitely many names. -/
def enumeration {α : Type} (all : List α) (name : α → String)
    (mem_all : ∀ a, a ∈ all) (nodup : (all.map name).Nodup) : Schema α where
  ok _ := True
  enc a := .str (name a)
  dec
    | .str s => all.find? fun a ↦ name a == s
    | _ => none
  json := id
  dec_enc := by
    intro a _
    cases hf : all.find? fun b ↦ name b == name a with
    | none => exact absurd (List.find?_eq_none.mp hf a (mem_all a)) (by simp)
    | some b =>
      have hname : name b = name a := by simpa using List.find?_some hf
      rw [List.inj_on_of_nodup_map nodup (mem_all b) (mem_all a) hname] at hf
      exact hf
  eq_of_dec_enc := by
    intro a b h
    have hname : name b = name a := by simpa using List.find?_some h
    exact List.inj_on_of_nodup_map nodup (mem_all b) (mem_all a) hname
  ok_of_dec _ := trivial
  enc_json a := viaJson_str (name a)
  ok_json h := h

/-- The literal `true`. -/
def literalTrue : Schema Unit where
  ok _ := True
  enc _ := .bool true
  dec
    | .bool true => some ()
    | _ => none
  json := id
  dec_enc _ := rfl
  eq_of_dec_enc _ := rfl
  ok_of_dec _ := trivial
  enc_json _ := viaJson_bool true
  ok_json h := h

/-! ## Free-form parts -/

/-- Any value at all. -/
def unknown : Schema Value where
  ok _ := True
  enc := id
  dec := some
  json := viaJson
  dec_enc _ := rfl
  eq_of_dec_enc h := (Option.some.inj h).symm
  ok_of_dec _ := trivial
  enc_json _ := rfl
  ok_json h := h

/-- An object with any keys and any values. -/
def record : Schema (List (String × Value)) where
  ok _ := True
  enc := .obj
  dec
    | .obj kvs => some kvs
    | _ => none
  json := viaJsonEntries
  dec_enc _ := rfl
  eq_of_dec_enc h := (Option.some.inj h).symm
  ok_of_dec _ := trivial
  enc_json kvs := viaJson_obj kvs
  ok_json h := h

/-! ## Combinators -/

/-- The schema, or null. The encoder of the schema must not produce null itself. -/
def nullable {α : Type} (S : Schema α) (not_null : ∀ a, S.enc a ≠ .null) : Schema (Option α) where
  ok o := ∀ a ∈ o, S.ok a
  enc
    | none => .null
    | some a => S.enc a
  dec
    | .null => some none
    | v => (S.dec v).map some
  json := Option.map S.json
  dec_enc := by
    intro o ho
    cases o with
    | none => rfl
    | some a =>
      have hd : S.dec (S.enc a) = some a := S.dec_enc (ho a rfl)
      have hn : S.enc a ≠ .null := not_null a
      cases he : S.enc a with
      | null => exact absurd he hn
      | _ => simp_all
  eq_of_dec_enc := by
    intro o o' h
    cases o with
    | none => exact (Option.some.inj h).symm
    | some a =>
      split at h
      · exact absurd ‹S.enc a = .null› (not_null a)
      · obtain ⟨b, hb, rfl⟩ := Option.map_eq_some_iff.mp h
        rw [S.eq_of_dec_enc hb]
  ok_of_dec := by
    intro v o h
    split at h
    · cases h
      intro a ha
      cases ha
    · obtain ⟨a, ha, rfl⟩ := Option.map_eq_some_iff.mp h
      intro b hb
      cases hb
      exact S.ok_of_dec ha
  enc_json o := by
    cases o with
    | none => exact viaJson_null
    | some a => exact S.enc_json a
  ok_json := by
    intro o ho b hb
    cases o with
    | none => cases hb
    | some a =>
      cases hb
      exact S.ok_json (ho a rfl)

/-- The same schema, for a type without free-form parts: text changes nothing. -/
def plain {α : Type} (S : Schema α) (h : ∀ a, S.json a = a) : Schema α where
  ok := S.ok
  enc := S.enc
  dec := S.dec
  json := id
  dec_enc := S.dec_enc
  eq_of_dec_enc := S.eq_of_dec_enc
  ok_of_dec := S.ok_of_dec
  enc_json a := by rw [S.enc_json, h, id]
  ok_json h := h

/-- An object with the given fields. -/
def object {α : Type} (F : Fields α) : Schema α where
  ok := F.ok
  enc a := .obj (F.enc a)
  dec
    | .obj kvs => F.dec (kvs.lookup ·)
    | _ => none
  json := F.json
  dec_enc h := F.dec_enc h fun _ _ ↦ rfl
  eq_of_dec_enc h := F.eq_of_dec_enc (fun _ _ ↦ rfl) h
  ok_of_dec := by
    intro v a h
    split at h
    · exact F.ok_of_dec h
    · cases h
  enc_json a := by rw [viaJson_obj, F.enc_json]
  ok_json := F.ok_json

end Schema

/-! ## Field lists -/

namespace Fields

/-- One required field. -/
def field {α : Type} (name : String) (S : Schema α) : Fields α where
  names := [name]
  ok := S.ok
  enc a := [(name, S.enc a)]
  dec look := (look name).bind S.dec
  json := S.json
  enc_names a k hk := by
    have hne : (k != name) = true := by simpa using hk
    exact List.lookup_eq_none_iff.mpr fun p hp ↦ by rwa [List.mem_singleton.mp hp]
  dec_enc h hlook := by
    rw [hlook name (by simp)]
    simp [S.dec_enc h]
  eq_of_dec_enc hlook h := by
    rw [hlook name (by simp)] at h
    exact S.eq_of_dec_enc (by simpa using h)
  ok_of_dec h := by
    obtain ⟨v, -, hv⟩ := Option.bind_eq_some_iff.mp h
    exact S.ok_of_dec hv
  enc_json a := by rw [viaJsonEntries_cons, viaJsonEntries_nil, S.enc_json]
  ok_json := S.ok_json

theorem field_dec {α : Type} (name : String) (S : Schema α) (look : String → Option Value) :
    (field name S).dec look = (look name).bind S.dec := rfl

/-- One field that may be absent. -/
def optional {α : Type} (name : String) (S : Schema α) : Fields (Option α) where
  names := [name]
  ok o := ∀ a ∈ o, S.ok a
  enc
    | none => []
    | some a => [(name, S.enc a)]
  dec look :=
    match look name with
    | none => some none
    | some v => (S.dec v).map some
  json := Option.map S.json
  enc_names o k hk := by
    cases o with
    | none => rfl
    | some a =>
      have hne : (k != name) = true := by simpa using hk
      exact List.lookup_eq_none_iff.mpr fun p hp ↦ by rwa [List.mem_singleton.mp hp]
  dec_enc := by
    intro o look ho hlook
    rw [hlook name (by simp)]
    cases o with
    | none => rfl
    | some a => simp [S.dec_enc (ho a rfl)]
  eq_of_dec_enc := by
    intro o o' look hlook h
    rw [hlook name (by simp)] at h
    cases o with
    | none => exact (Option.some.inj h).symm
    | some a =>
      simp only [List.lookup_cons_self] at h
      obtain ⟨b, hb, rfl⟩ := Option.map_eq_some_iff.mp h
      rw [S.eq_of_dec_enc hb]
  ok_of_dec := by
    intro look o h
    split at h
    · cases h
      intro a ha
      cases ha
    · obtain ⟨a, ha, rfl⟩ := Option.map_eq_some_iff.mp h
      intro b hb
      cases hb
      exact S.ok_of_dec ha
  enc_json o := by
    cases o with
    | none => exact viaJsonEntries_nil
    | some a => simp [S.enc_json]
  ok_json := by
    intro o ho b hb
    cases o with
    | none => cases hb
    | some a =>
      cases hb
      exact S.ok_json (ho a rfl)

/-- No fields. -/
def empty : Fields Unit where
  names := []
  ok _ := True
  enc _ := []
  dec _ := some ()
  json := id
  enc_names _ _ _ := rfl
  dec_enc _ _ := rfl
  eq_of_dec_enc _ _ := rfl
  ok_of_dec _ := trivial
  enc_json _ := viaJsonEntries_nil
  ok_json h := h

/-- Two field lists side by side. Their names must not overlap, or a lookup meant for one would
find the other. -/
def and {α β : Type} (F : Fields α) (G : Fields β)
    (disjoint : ∀ k ∈ F.names, k ∉ G.names := by decide) : Fields (α × β) where
  names := F.names ++ G.names
  ok p := F.ok p.1 ∧ G.ok p.2
  enc p := F.enc p.1 ++ G.enc p.2
  dec look := (F.dec look).bind fun a ↦ (G.dec look).map fun b ↦ (a, b)
  json p := (F.json p.1, G.json p.2)
  enc_names p k hk := by
    rw [List.mem_append, not_or] at hk
    rw [List.lookup_append, F.enc_names _ _ hk.1, G.enc_names _ _ hk.2]
    rfl
  dec_enc := by
    intro p look hp hlook
    have hF : F.dec look = some p.1 := by
      refine F.dec_enc hp.1 fun k hk ↦ ?_
      rw [hlook k (List.mem_append_left _ hk), List.lookup_append, G.enc_names _ _ (disjoint k hk),
        Option.or_none]
    have hG : G.dec look = some p.2 := by
      refine G.dec_enc hp.2 fun k hk ↦ ?_
      rw [hlook k (List.mem_append_right _ hk), List.lookup_append,
        F.enc_names _ _ fun h ↦ disjoint k h hk, Option.none_or]
    rw [hF, hG]
    rfl
  eq_of_dec_enc := by
    intro p q look hlook h
    obtain ⟨a, ha, h⟩ := Option.bind_eq_some_iff.mp h
    obtain ⟨b, hb, rfl⟩ := Option.map_eq_some_iff.mp h
    have hF : a = p.1 := by
      refine F.eq_of_dec_enc (fun k hk ↦ ?_) ha
      rw [hlook k (List.mem_append_left _ hk), List.lookup_append,
        G.enc_names _ _ (disjoint k hk), Option.or_none]
    have hG : b = p.2 := by
      refine G.eq_of_dec_enc (fun k hk ↦ ?_) hb
      rw [hlook k (List.mem_append_right _ hk), List.lookup_append,
        F.enc_names _ _ fun h ↦ disjoint k h hk, Option.none_or]
    rw [hF, hG]
  ok_of_dec := by
    intro look p h
    obtain ⟨a, ha, h⟩ := Option.bind_eq_some_iff.mp h
    obtain ⟨b, hb, rfl⟩ := Option.map_eq_some_iff.mp h
    exact ⟨F.ok_of_dec ha, G.ok_of_dec hb⟩
  enc_json p := by rw [viaJsonEntries_append, F.enc_json, G.enc_json]
  ok_json h := ⟨F.ok_json h.1, G.ok_json h.2⟩

/-- Two field lists are read one after the other. -/
theorem and_dec {α β : Type} {F : Fields α} {G : Fields β}
    {disjoint : ∀ k ∈ F.names, k ∉ G.names} {look : String → Option Value} {a : α} {b : β} :
    (F.and G disjoint).dec look = some (a, b) ↔ F.dec look = some a ∧ G.dec look = some b := by
  change ((F.dec look).bind fun a ↦ (G.dec look).map fun b ↦ (a, b)) = some (a, b) ↔ _
  rw [Option.bind_eq_some_iff]
  constructor
  · rintro ⟨a', ha, hmap⟩
    obtain ⟨b', hb, heq⟩ := Option.map_eq_some_iff.mp hmap
    obtain ⟨rfl, rfl⟩ := Prod.mk.inj heq
    exact ⟨ha, hb⟩
  · rintro ⟨ha, hb⟩
    exact ⟨a, ha, Option.map_eq_some_iff.mpr ⟨b, hb, rfl⟩⟩

/-- Read a field list at another type. -/
def iso {α β : Type} (F : Fields α) (f : α → β) (g : β → α)
    (f_g : ∀ b, f (g b) = b) (g_f : ∀ a, g (f a) = a) : Fields β where
  names := F.names
  ok b := F.ok (g b)
  enc b := F.enc (g b)
  dec look := (F.dec look).map f
  json b := f (F.json (g b))
  enc_names b := F.enc_names (g b)
  dec_enc h hlook := by rw [F.dec_enc h hlook, Option.map_some, f_g]
  eq_of_dec_enc hlook h := by
    obtain ⟨a, ha, rfl⟩ := Option.map_eq_some_iff.mp h
    rw [F.eq_of_dec_enc hlook ha, f_g]
  ok_of_dec h := by
    obtain ⟨a, ha, rfl⟩ := Option.map_eq_some_iff.mp h
    rw [g_f]
    exact F.ok_of_dec ha
  enc_json b := by rw [F.enc_json, g_f]
  ok_json h := by
    rw [g_f]
    exact F.ok_json h

end Fields

/-! ## Discriminated unions -/

/-- One member of a union: its tag, its fields, and the constructor they feed. -/
structure Variant (α : Type) where
  {β : Type}
  tag : String
  fields : Fields β
  inj : β → α
  proj : α → Option β
  proj_inj : ∀ b, proj (inj b) = some b := by exact fun _ ↦ rfl
  inj_proj : ∀ {a b}, proj a = some b → inj b = a := by
    intro a b h; cases a <;> first | cases h; rfl | cases h

namespace Variant

variable {α : Type}

/-- The variant an element belongs to, with its tag and encoded fields. -/
def enc (key : String) : List (Variant α) → α → List (String × Value)
  | [], _ => []
  | V :: Vs, a =>
    match V.proj a with
    | some b => (key, .str V.tag) :: V.fields.enc b
    | none => enc key Vs a

def dec (t : String) (look : String → Option Value) : List (Variant α) → Option α
  | [] => none
  | V :: Vs => if V.tag = t then (V.fields.dec look).map V.inj else dec t look Vs

def ok : List (Variant α) → α → Prop
  | [], _ => False
  | V :: Vs, a =>
    match V.proj a with
    | some b => V.fields.ok b
    | none => ok Vs a

def json : List (Variant α) → α → α
  | [], a => a
  | V :: Vs, a =>
    match V.proj a with
    | some b => V.inj (V.fields.json b)
    | none => json Vs a

theorem enc_cons (key : String) (V : Variant α) (Vs : List (Variant α)) (a : α) :
    enc key (V :: Vs) a =
      match V.proj a with
      | some b => (key, .str V.tag) :: V.fields.enc b
      | none => enc key Vs a := rfl

theorem dec_cons (t : String) (look : String → Option Value) (V : Variant α)
    (Vs : List (Variant α)) : dec t look (V :: Vs) =
      if V.tag = t then (V.fields.dec look).map V.inj else dec t look Vs := rfl

theorem ok_cons (V : Variant α) (Vs : List (Variant α)) (a : α) :
    ok (V :: Vs) a =
      match V.proj a with
      | some b => V.fields.ok b
      | none => ok Vs a := rfl

theorem json_cons (V : Variant α) (Vs : List (Variant α)) (a : α) :
    json (V :: Vs) a =
      match V.proj a with
      | some b => V.inj (V.fields.json b)
      | none => json Vs a := rfl

theorem enc_names {key : String} {Vs : List (Variant α)} {a : α} {k : String} (hkey : k ≠ key)
    (hk : ∀ V ∈ Vs, k ∉ V.fields.names) : (enc key Vs a).lookup k = none := by
  induction Vs with
  | nil => rfl
  | cons V Vs ih =>
    rw [enc_cons]
    split
    · rename_i b _
      rw [List.lookup_cons]
      simp only [beq_eq_false_iff_ne.mpr hkey]
      exact V.fields.enc_names b k (hk V List.mem_cons_self)
    · exact ih fun W hW ↦ hk W (List.mem_cons_of_mem V hW)

/-- An accepted element is encoded under a tag. -/
theorem exists_tag (key : String) {Vs : List (Variant α)} {a : α} (h : ok Vs a) :
    ∃ t, (enc key Vs a).lookup key = some (.str t) := by
  induction Vs with
  | nil => exact absurd h id
  | cons V Vs ih =>
    rw [ok_cons] at h
    rw [enc_cons]
    split at h
    · exact ⟨V.tag, List.lookup_cons_self⟩
    · exact ih h

/-- The tag an element is encoded under is the tag of one of the variants. -/
theorem mem_tags {key : String} {Vs : List (Variant α)} {a : α} {t : String}
    (ht : (enc key Vs a).lookup key = some (.str t)) : t ∈ Vs.map Variant.tag := by
  induction Vs with
  | nil => cases ht
  | cons V Vs ih =>
    rw [enc_cons] at ht
    split at ht
    · rw [List.lookup_cons_self, Option.some_inj, Value.str.injEq] at ht
      simp [ht]
    · exact List.mem_cons_of_mem _ (ih ht)

theorem dec_enc {key : String} {Vs : List (Variant α)} {a : α} {look : String → Option Value}
    (nodup : (Vs.map Variant.tag).Nodup) (fresh : ∀ V ∈ Vs, key ∉ V.fields.names) (h : ok Vs a)
    (hlook : ∀ V ∈ Vs, ∀ k ∈ V.fields.names, look k = (enc key Vs a).lookup k) {t : String}
    (ht : (enc key Vs a).lookup key = some (.str t)) : dec t look Vs = some a := by
  induction Vs with
  | nil => exact absurd h id
  | cons V Vs ih =>
    rw [ok_cons] at h
    rw [enc_cons] at ht
    rw [dec_cons]
    cases hp : V.proj a with
    | some b =>
      simp only [hp] at h ht
      have hlook : ∀ W ∈ V :: Vs, ∀ k ∈ W.fields.names,
          look k = List.lookup k ((key, .str V.tag) :: V.fields.enc b) := by
        intro W hW k hk
        rw [hlook W hW k hk, enc_cons, hp]
      have htag : V.tag = t := by simpa [List.lookup_cons] using ht
      have hb : V.fields.dec look = some b := by
        refine V.fields.dec_enc h fun k hk ↦ ?_
        have hne : k ≠ key := fun he ↦ fresh V List.mem_cons_self (he ▸ hk)
        rw [hlook V List.mem_cons_self k hk, List.lookup_cons, beq_eq_false_iff_ne.mpr hne]
      rw [if_pos htag, hb, Option.map_some, V.inj_proj hp]
    | none =>
      simp only [hp] at h ht
      have hlook : ∀ W ∈ V :: Vs, ∀ k ∈ W.fields.names, look k = (enc key Vs a).lookup k := by
        intro W hW k hk
        rw [hlook W hW k hk, enc_cons, hp]
      rw [List.map_cons, List.nodup_cons] at nodup
      have hne : V.tag ≠ t := fun he ↦ nodup.1 (he ▸ mem_tags ht)
      rw [if_neg hne]
      exact ih nodup.2 (fun W hW ↦ fresh W (List.mem_cons_of_mem V hW)) h
        (fun W hW ↦ hlook W (List.mem_cons_of_mem V hW)) ht

theorem eq_of_dec_enc {key : String} {Vs : List (Variant α)} {a c : α}
    {look : String → Option Value} (nodup : (Vs.map Variant.tag).Nodup)
    (fresh : ∀ V ∈ Vs, key ∉ V.fields.names)
    (hlook : ∀ V ∈ Vs, ∀ k ∈ V.fields.names, look k = (enc key Vs a).lookup k) {t : String}
    (ht : (enc key Vs a).lookup key = some (.str t)) (h : dec t look Vs = some c) : c = a := by
  induction Vs with
  | nil => cases h
  | cons V Vs ih =>
    rw [enc_cons] at ht
    rw [dec_cons] at h
    cases hp : V.proj a with
    | some b =>
      simp only [hp] at ht
      have htag : V.tag = t := by simpa [List.lookup_cons] using ht
      rw [if_pos htag] at h
      obtain ⟨b', hb', rfl⟩ := Option.map_eq_some_iff.mp h
      have hb : b' = b := by
        refine V.fields.eq_of_dec_enc (fun k hk ↦ ?_) hb'
        have hne : k ≠ key := fun he ↦ fresh V List.mem_cons_self (he ▸ hk)
        rw [hlook V List.mem_cons_self k hk, enc_cons, hp, List.lookup_cons,
          beq_eq_false_iff_ne.mpr hne]
      rw [hb, V.inj_proj hp]
    | none =>
      simp only [hp] at ht
      rw [List.map_cons, List.nodup_cons] at nodup
      have hne : V.tag ≠ t := fun he ↦ nodup.1 (he ▸ mem_tags ht)
      rw [if_neg hne] at h
      refine ih nodup.2 (fun W hW ↦ fresh W (List.mem_cons_of_mem V hW)) ?_ ht h
      intro W hW k hk
      rw [hlook W (List.mem_cons_of_mem V hW) k hk, enc_cons, hp]

/-- The tag an element is read under is the tag of one of the variants. -/
theorem mem_tags_of_dec {t : String} {look : String → Option Value} {Vs : List (Variant α)} {a : α}
    (h : dec t look Vs = some a) : t ∈ Vs.map Variant.tag := by
  induction Vs with
  | nil => cases h
  | cons V Vs ih =>
    rw [dec_cons] at h
    split at h
    · rename_i ht
      exact ht ▸ List.mem_cons_self
    · exact List.mem_cons_of_mem _ (ih h)

theorem ok_of_dec {t : String} {look : String → Option Value} {Vs : List (Variant α)} {a : α}
    (covered : ∀ V ∈ Vs, ∀ b, V.fields.ok b → ok Vs (V.inj b)) (h : dec t look Vs = some a) :
    ok Vs a := by
  have key : ∀ Ws : List (Variant α), (∀ V ∈ Ws, V ∈ Vs) → dec t look Ws = some a → ok Vs a := by
    intro Ws
    induction Ws with
    | nil => intro _ h; cases h
    | cons V Ws ih =>
      intro hsub h
      rw [dec_cons] at h
      split at h
      · obtain ⟨b, hb, rfl⟩ := Option.map_eq_some_iff.mp h
        exact covered V (hsub V List.mem_cons_self) b (V.fields.ok_of_dec hb)
      · exact ih (fun W hW ↦ hsub W (List.mem_cons_of_mem V hW)) h
  exact key Vs (fun _ hV ↦ hV) h

end Variant

/-- The variants of a union under one discriminating key, with the facts that make the union
unambiguous: no two variants share a tag, no two claim the same element, and none uses the key as a
field. -/
structure TaggedUnion (α : Type) where
  key : String
  variants : List (Variant α)
  nodup : (variants.map Variant.tag).Nodup
  fresh : ∀ V ∈ variants, key ∉ V.fields.names
  apart : variants.Pairwise fun V W ↦ ∀ b, V.proj (W.inj b) = none

namespace TaggedUnion

variable {α : Type}

private theorem ok_inj {Vs : List (Variant α)}
    (apart : Vs.Pairwise fun V W ↦ ∀ b, V.proj (W.inj b) = none) {V : Variant α} (hV : V ∈ Vs)
    {b : V.β} (h : V.fields.ok b) : Variant.ok Vs (V.inj b) := by
  induction Vs with
  | nil => cases hV
  | cons W Vs ih =>
    rw [List.pairwise_cons] at apart
    rw [Variant.ok_cons]
    rcases List.mem_cons.mp hV with rfl | hV
    · rw [V.proj_inj]
      exact h
    · rw [apart.1 V hV b]
      exact ih apart.2 hV

private theorem ok_json_aux {Vs : List (Variant α)}
    (apart : Vs.Pairwise fun V W ↦ ∀ b, V.proj (W.inj b) = none) {a : α} (h : Variant.ok Vs a) :
    Variant.ok Vs (Variant.json Vs a) := by
  induction Vs with
  | nil => exact absurd h id
  | cons W Vs ih =>
    rw [List.pairwise_cons] at apart
    rw [Variant.ok_cons] at h
    rw [Variant.json_cons]
    cases hp : W.proj a with
    | some b =>
      simp only [hp] at h
      rw [Variant.ok_cons]
      simp only [W.proj_inj]
      exact W.fields.ok_json h
    | none =>
      simp only [hp] at h
      have hrest := ih apart.2 h
      rw [Variant.ok_cons]
      -- The element the tail returns was injected by a variant of the tail.
      have hnone : W.proj (Variant.json Vs a) = none := by
        clear hrest ih hp
        have key : ∀ Us : List (Variant α), (∀ V ∈ Us, V ∈ Vs) → Variant.ok Us a →
            W.proj (Variant.json Us a) = none := by
          intro Us
          induction Us with
          | nil => intro _ h; exact absurd h id
          | cons U Us ihU =>
            intro hsub hU
            rw [Variant.ok_cons] at hU
            rw [Variant.json_cons]
            cases hq : U.proj a with
            | some b => exact apart.1 U (hsub U List.mem_cons_self) _
            | none =>
              simp only [hq] at hU
              exact ihU (fun V hV ↦ hsub V (List.mem_cons_of_mem U hV)) hU
        exact key Vs (fun _ hV ↦ hV) h
      simp only [hnone]
      exact hrest

private theorem enc_json_aux {key : String} {Vs : List (Variant α)}
    (apart : Vs.Pairwise fun V W ↦ ∀ b, V.proj (W.inj b) = none) (a : α) :
    viaJsonEntries (Variant.enc key Vs a) = Variant.enc key Vs (Variant.json Vs a) := by
  induction Vs with
  | nil => exact viaJsonEntries_nil
  | cons W Vs ih =>
    rw [List.pairwise_cons] at apart
    rw [Variant.enc_cons, Variant.json_cons]
    cases hp : W.proj a with
    | some b =>
      simp only [Variant.enc_cons, W.proj_inj]
      rw [viaJsonEntries_cons, viaJson_str, W.fields.enc_json]
    | none =>
      have hnone : W.proj (Variant.json Vs a) = none := by
        have key : ∀ Us : List (Variant α), (∀ V ∈ Us, V ∈ Vs) →
            W.proj (Variant.json Us a) = none := by
          intro Us
          induction Us with
          | nil => intro _; exact hp
          | cons U Us ihU =>
            intro hsub
            rw [Variant.json_cons]
            cases hq : U.proj a with
            | some b => exact apart.1 U (hsub U List.mem_cons_self) _
            | none => exact ihU fun V hV ↦ hsub V (List.mem_cons_of_mem U hV)
        exact key Vs fun _ hV ↦ hV
      simp only [Variant.enc_cons, hnone]
      exact ih apart.2

/-- The union as a field list: the tag, then the fields of the variant. -/
def fields (U : TaggedUnion α) : Fields α where
  names := U.key :: U.variants.flatMap fun V ↦ V.fields.names
  ok := Variant.ok U.variants
  enc := Variant.enc U.key U.variants
  dec look :=
    match look U.key with
    | some (.str t) => Variant.dec t look U.variants
    | _ => none
  json := Variant.json U.variants
  enc_names a k hk := by
    rw [List.mem_cons, not_or, List.mem_flatMap] at hk
    exact Variant.enc_names hk.1 fun V hV hn ↦ hk.2 ⟨V, hV, hn⟩
  dec_enc := by
    intro a look h hlook
    obtain ⟨t, ht⟩ := Variant.exists_tag U.key h
    rw [hlook U.key List.mem_cons_self, ht]
    refine Variant.dec_enc U.nodup U.fresh h (fun V hV k hk ↦ hlook k ?_) ht
    exact List.mem_cons_of_mem _ (List.mem_flatMap.mpr ⟨V, hV, hk⟩)
  eq_of_dec_enc := by
    intro a b look hlook h
    split at h
    · rename_i t ht
      rw [hlook U.key List.mem_cons_self] at ht
      refine Variant.eq_of_dec_enc U.nodup U.fresh (fun V hV k hk ↦ hlook k ?_) ht h
      exact List.mem_cons_of_mem _ (List.mem_flatMap.mpr ⟨V, hV, hk⟩)
    · cases h
  ok_of_dec := by
    intro look a h
    split at h
    · exact Variant.ok_of_dec (fun V hV b hb ↦ ok_inj U.apart hV hb) h
    · cases h
  enc_json := enc_json_aux U.apart
  ok_json := ok_json_aux U.apart

/-- What is read from a union is read under the tag that stands in the key. -/
theorem tag_of_dec (U : TaggedUnion α) {look : String → Option Value} {a : α}
    (h : U.fields.dec look = some a) :
    ∃ t, look U.key = some (.str t) ∧ Variant.dec t look U.variants = some a := by
  rw [fields] at h
  dsimp only at h
  split at h
  · rename_i t ht
    exact ⟨t, ht, h⟩
  · cases h

end TaggedUnion

end Codec
