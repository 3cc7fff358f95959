import QwenHarness.Codec.Schema

/-!
# What is read from text

A value that was read from text is spelled by text as it is. What a schema reads from such a value
is spelled as it is too: no part of it was made up on the way. The law is not a field of a schema,
since it is about values that came from text only; it is put together from the parts of a schema.
-/

namespace Codec

open Value

/-- What is read from a value that text spells is spelled by text itself. -/
def Schema.Settled {α : Type} (S : Schema α) : Prop :=
  ∀ {v : Value} {a : α}, v.viaJson = v → S.dec v = some a → S.json a = a

def Fields.Settled {α : Type} (F : Fields α) : Prop :=
  ∀ {look : String → Option Value} {a : α}, (∀ k v, look k = some v → v.viaJson = v) →
    F.dec look = some a → F.json a = a

namespace Schema

variable {α : Type} {S : Schema α}

theorem settled_of_json (h : ∀ a, S.json a = a) : S.Settled := fun _ _ ↦ h _

theorem settled_unknown : unknown.Settled := by
  intro v a hv h
  cases h
  exact hv

theorem settled_record : record.Settled := by
  intro v kvs hv h
  cases v with
  | obj kvs' =>
    cases h
    rw [viaJson_obj, Value.obj.injEq] at hv
    exact hv
  | _ => cases h

theorem settled_nullable {not_null : ∀ a, S.enc a ≠ .null} (hS : S.Settled) :
    (S.nullable not_null).Settled := by
  intro v o hv h
  cases o with
  | none => rfl
  | some a =>
    have hdec : S.dec v = some a := by
      cases v with
      | null => cases h
      | _ =>
        obtain ⟨b, hb, he⟩ := Option.map_eq_some_iff.mp h
        cases he
        exact hb
    exact congrArg some (hS hv hdec)

/-- What an object that text spells holds under a key is spelled by text. -/
theorem viaJson_lookup {kvs : List (String × Value)} (h : (Value.obj kvs).viaJson = .obj kvs)
    {k : String} {v : Value} (hv : kvs.lookup k = some v) : v.viaJson = v := by
  rw [viaJson_obj, Value.obj.injEq] at h
  have hlookup := lookup_viaJsonEntries k kvs
  rw [h, hv] at hlookup
  exact (Option.some.inj hlookup).symm

theorem settled_object {F : Fields α} (hF : F.Settled) : (object F).Settled := by
  intro v a hv h
  cases v with
  | obj kvs => exact hF (fun _ _ hw ↦ viaJson_lookup hv hw) h
  | _ => cases h

end Schema

namespace Fields

variable {α β : Type} {F : Fields α} {G : Fields β}

theorem settled_of_json (h : ∀ a, F.json a = a) : F.Settled := fun _ _ ↦ h _

theorem settled_field {name : String} {S : Schema α} (hS : S.Settled) :
    (field name S).Settled := by
  intro look a hlook h
  obtain ⟨v, hv, hdec⟩ := Option.bind_eq_some_iff.mp h
  exact hS (hlook name v hv) hdec

theorem settled_and {disjoint : ∀ k ∈ F.names, k ∉ G.names} (hF : F.Settled) (hG : G.Settled) :
    (F.and G disjoint).Settled := by
  rintro look ⟨a, b⟩ hlook h
  obtain ⟨ha, hb⟩ := and_dec.mp h
  exact Prod.ext (hF hlook ha) (hG hlook hb)

theorem settled_iso {f : α → β} {g : β → α} {f_g : ∀ b, f (g b) = b} {g_f : ∀ a, g (f a) = a}
    (hF : F.Settled) : (F.iso f g f_g g_f).Settled := by
  intro look b hlook h
  obtain ⟨a, ha, rfl⟩ := Option.map_eq_some_iff.mp h
  change f (F.json (g (f a))) = f a
  rw [g_f, hF hlook ha]

end Fields

namespace Variant

variable {α : Type}

/-- What is read under a tag comes from the variant with this tag. -/
theorem exists_of_dec {t : String} {look : String → Option Value} {Vs : List (Variant α)} {a : α}
    (h : dec t look Vs = some a) :
    ∃ V ∈ Vs, V.tag = t ∧ ∃ b, V.fields.dec look = some b ∧ V.inj b = a := by
  induction Vs with
  | nil => cases h
  | cons V Vs ih =>
    rw [dec] at h
    by_cases ht : V.tag = t
    · rw [if_pos ht] at h
      obtain ⟨b, hb, ha⟩ := Option.map_eq_some_iff.mp h
      exact ⟨V, List.mem_cons_self, ht, b, hb, ha⟩
    · rw [if_neg ht] at h
      obtain ⟨W, hW, hrest⟩ := ih h
      exact ⟨W, List.mem_cons_of_mem V hW, hrest⟩

theorem json_of_dec {t : String} {look : String → Option Value} {Vs : List (Variant α)} {a : α}
    (apart : Vs.Pairwise fun V W ↦ ∀ b, V.proj (W.inj b) = none)
    (hVs : ∀ V ∈ Vs, V.fields.Settled) (hlook : ∀ k v, look k = some v → v.viaJson = v)
    (h : dec t look Vs = some a) : json Vs a = a := by
  induction Vs with
  | nil => cases h
  | cons V Vs ih =>
    rw [List.pairwise_cons] at apart
    rw [List.forall_mem_cons] at hVs
    rw [dec] at h
    rw [json]
    by_cases ht : V.tag = t
    · rw [if_pos ht] at h
      obtain ⟨b, hb, rfl⟩ := Option.map_eq_some_iff.mp h
      rw [V.proj_inj]
      exact congrArg V.inj (hVs.1 hlook hb)
    · rw [if_neg ht] at h
      obtain ⟨W, hW, -, b, -, rfl⟩ := exists_of_dec h
      rw [apart.1 W hW b]
      exact ih apart.2 hVs.2 h

end Variant

theorem TaggedUnion.settled {α : Type} (U : TaggedUnion α)
    (h : ∀ V ∈ U.variants, V.fields.Settled) : U.fields.Settled := by
  intro look a hlook hdec
  obtain ⟨t, -, hvariant⟩ := U.tag_of_dec hdec
  exact Variant.json_of_dec U.apart h hlook hvariant

end Codec
