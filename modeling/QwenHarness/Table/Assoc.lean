import Mathlib.Data.List.Induction
import Mathlib.Data.List.Nodup

/-!
# Maps in insertion order

A map is a list of keys with what is under them. A key that is there keeps its place when what is
under it changes; a new key comes last. Entries are grouped by putting each one behind those under
its key, so that the groups come in the order of their first entries.
-/

namespace Assoc

variable {κ β : Type} [DecidableEq κ]

/-- Change what is under a key, or put something there. -/
def alter (k : κ) (f : Option β → β) : List (κ × β) → List (κ × β)
  | [] => [(k, f none)]
  | (k', b) :: xs => if k' = k then (k', f (some b)) :: xs else (k', b) :: alter k f xs

variable {k : κ} {f : Option β → β} {xs : List (κ × β)}

theorem map_fst_alter : (alter k f xs).map Prod.fst =
    if k ∈ xs.map Prod.fst then xs.map Prod.fst else xs.map Prod.fst ++ [k] := by
  induction xs with
  | nil => rfl
  | cons x xs ih =>
    obtain ⟨k', b⟩ := x
    rw [alter]
    by_cases hk : k' = k
    · subst hk
      rw [if_pos rfl, if_pos (by simp)]
      rfl
    · rw [if_neg hk, List.map_cons, ih, List.map_cons]
      by_cases hmem : k ∈ xs.map Prod.fst
      · rw [if_pos hmem, if_pos (List.mem_cons_of_mem _ hmem)]
      · rw [if_neg hmem, if_neg, List.cons_append]
        rw [List.mem_cons, not_or]
        exact ⟨Ne.symm hk, hmem⟩

theorem alter_of_not_mem (h : k ∉ xs.map Prod.fst) : alter k f xs = xs ++ [(k, f none)] := by
  induction xs with
  | nil => rfl
  | cons x xs ih =>
    rw [List.map_cons, List.mem_cons, not_or] at h
    rw [alter, if_neg (Ne.symm h.1), ih h.2, List.cons_append]

theorem nodup_alter (h : (xs.map Prod.fst).Nodup) : ((alter k f xs).map Prod.fst).Nodup := by
  rw [map_fst_alter]
  split
  · exact h
  · next hk => exact h.append (List.nodup_singleton k) (List.disjoint_singleton.mpr hk)

/-- Change what is under a key, if something is there. -/
def modify (k : κ) (g : β → β) (xs : List (κ × β)) : List (κ × β) :=
  xs.map fun x ↦ if x.1 = k then (x.1, g x.2) else x

theorem map_fst_modify (k : κ) (g : β → β) (xs : List (κ × β)) :
    (modify k g xs).map Prod.fst = xs.map Prod.fst := by
  rw [modify, List.map_map]
  refine List.map_congr_left fun x _ ↦ ?_
  rw [Function.comp_apply]
  split <;> rfl

/-- What holds of every entry holds after a change, if it holds of what is put there. -/
theorem forall_mem_alter {P : κ → β → Prop} (hnone : P k (f none))
    (hsome : ∀ b, P k b → P k (f (some b))) (h : ∀ x ∈ xs, P x.1 x.2) :
    ∀ x ∈ alter k f xs, P x.1 x.2 := by
  induction xs with
  | nil => exact List.forall_mem_singleton.mpr hnone
  | cons y xs ih =>
    rw [List.forall_mem_cons] at h
    rw [alter]
    split
    · next hk =>
      subst hk
      exact List.forall_mem_cons.mpr ⟨hsome _ h.1, h.2⟩
    · exact List.forall_mem_cons.mpr ⟨h.1, ih h.2⟩

section Lookup

variable [BEq κ] [LawfulBEq κ]

theorem lookup_cons_eq (k' : κ) (x : κ × β) :
    (x :: xs).lookup k' = if k' = x.1 then some x.2 else xs.lookup k' := by
  obtain ⟨j, b⟩ := x
  rw [List.lookup_cons]
  by_cases hk : k' = j
  · rw [beq_iff_eq.mpr hk, if_pos hk]
  · rw [beq_eq_false_iff_ne.mpr hk, if_neg hk]

theorem lookup_alter (k' : κ) :
    (alter k f xs).lookup k' = if k' = k then some (f (xs.lookup k)) else xs.lookup k' := by
  induction xs with
  | nil => exact lookup_cons_eq k' (k, f none)
  | cons x xs ih =>
    obtain ⟨j, b⟩ := x
    rw [alter, lookup_cons_eq k', lookup_cons_eq k]
    by_cases hj : j = k
    · subst hj
      rw [if_pos rfl, if_pos rfl, lookup_cons_eq]
      split_ifs <;> rfl
    · rw [if_neg hj, if_neg (Ne.symm hj), lookup_cons_eq, ih]
      by_cases hk : k' = j
      · subst hk
        rw [if_pos rfl, if_neg hj, if_pos rfl]
      · rw [if_neg hk, if_neg hk]

theorem lookup_modify (k' : κ) (g : β → β) :
    (modify k g xs).lookup k' = if k' = k then (xs.lookup k).map g else xs.lookup k' := by
  induction xs with
  | nil => exact (ite_self none).symm
  | cons x xs ih =>
    obtain ⟨j, b⟩ := x
    rw [modify, List.map_cons, ← modify, lookup_cons_eq, ih, lookup_cons_eq, lookup_cons_eq]
    by_cases hj : j = k
    · subst hj
      rw [if_pos rfl, if_pos rfl]
      split_ifs <;> rfl
    · rw [if_neg hj, if_neg (Ne.symm hj)]
      by_cases hk : k' = j
      · subst hk
        rw [if_pos rfl, if_neg hj, if_pos rfl]
      · rw [if_neg hk, if_neg hk]

/-- What stands in a map stands under its key. -/
theorem mem_iff_lookup (h : (xs.map Prod.fst).Nodup) {b : β} :
    (k, b) ∈ xs ↔ xs.lookup k = some b := by
  induction xs with
  | nil => simp
  | cons x xs ih =>
    obtain ⟨j, c⟩ := x
    rw [List.map_cons, List.nodup_cons] at h
    rw [List.mem_cons, Prod.mk.injEq, ih h.2, lookup_cons_eq]
    by_cases hk : k = j
    · subst hk
      rw [if_pos rfl]
      constructor
      · rintro (⟨-, rfl⟩ | hlook)
        · rfl
        · exact absurd (List.mem_map.mpr ⟨(k, b), (ih h.2).mpr hlook, rfl⟩) h.1
      · exact fun heq ↦ .inl ⟨rfl, (Option.some.inj heq).symm⟩
    · rw [if_neg hk]
      exact or_iff_right fun heq ↦ hk heq.1

end Lookup

/-! ## Filling a map -/

section Fill

variable {ρ : Type} {key : ρ → κ} {add : ρ → Option β → β}

/-- Put the entries of a list into a map, one after the other. -/
def fill (key : ρ → κ) (add : ρ → Option β → β) (rs : List ρ) : List (κ × β) :=
  rs.foldl (fun xs r ↦ alter (key r) (add r) xs) []

theorem fill_concat (rs : List ρ) (r : ρ) :
    fill key add (rs ++ [r]) = alter (key r) (add r) (fill key add rs) := by
  rw [fill, List.foldl_append]
  rfl

theorem nodup_fill (rs : List ρ) : ((fill key add rs).map Prod.fst).Nodup := by
  induction rs using List.reverseRecOn with
  | nil => exact List.nodup_nil
  | append_singleton rs r ih =>
    rw [fill_concat]
    exact nodup_alter ih

/-- **What holds in a map that was filled**, if every entry of the list keeps it. -/
theorem forall_mem_fill {P : κ → β → Prop} {rs : List ρ}
    (hnone : ∀ r ∈ rs, P (key r) (add r none))
    (hsome : ∀ r ∈ rs, ∀ b, P (key r) b → P (key r) (add r (some b))) :
    ∀ x ∈ fill key add rs, P x.1 x.2 := by
  induction rs using List.reverseRecOn with
  | nil => exact fun x hx ↦ absurd hx List.not_mem_nil
  | append_singleton rs r ih =>
    have hr : r ∈ rs ++ [r] := List.mem_append_right _ List.mem_cons_self
    rw [fill_concat]
    refine forall_mem_alter (hnone r hr) (hsome r hr) (ih ?_ ?_)
    · exact fun x hx ↦ hnone x (List.mem_append_left _ hx)
    · exact fun x hx ↦ hsome x (List.mem_append_left _ hx)

/-- **What stands under a key** was put there by the entries of that key alone. -/
theorem lookup_fill [BEq κ] [LawfulBEq κ] (rs : List ρ) (k : κ) : (fill key add rs).lookup k =
    (rs.filter fun r ↦ key r = k).foldl (fun o r ↦ some (add r o)) none := by
  induction rs using List.reverseRecOn with
  | nil => rfl
  | append_singleton rs r ih =>
    rw [fill_concat, lookup_alter, List.filter_append, List.foldl_append, List.filter_singleton]
    by_cases hr : key r = k
    · subst hr
      rw [if_pos rfl, decide_eq_true rfl, Bool.cond_true, List.foldl_cons, List.foldl_nil, ih]
    · rw [if_neg (Ne.symm hr), decide_eq_false hr, Bool.cond_false, List.foldl_nil, ih]

end Fill

end Assoc
