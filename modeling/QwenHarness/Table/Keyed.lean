import Mathlib.Data.List.Nodup

/-!
# Tables with a primary key

A table is a list of rows in insertion order, no two of which share a key. The uniqueness is a
field, so a table that breaks its primary key cannot be built; an insert that would break it is
refused.

The last section says how the operations commute with deleting rows. An operation under a key
whose row is kept can be done before or after the deletion; one under a key whose row is deleted
might as well not have happened.
-/

/-- Rows in insertion order, under a primary key. -/
@[ext] structure Keyed {ρ κ : Type} (key : ρ → κ) where
  rows : List ρ
  nodup : (rows.map key).Nodup

namespace Keyed

variable {ρ κ : Type} {key : ρ → κ}

/-- The table without rows. -/
def empty : Keyed key := ⟨[], by simp⟩

instance : Inhabited (Keyed key) := ⟨empty⟩

/-! ## Operations -/

/-- `UPDATE … WHERE p`, for an update that leaves the key alone. -/
def modifyWhere (t : Keyed key) (p : ρ → Bool) (f : ρ → ρ) (hf : ∀ r, key (f r) = key r) :
    Keyed key where
  rows := t.rows.map fun r ↦ if p r then f r else r
  nodup := by
    rw [List.map_map]
    have hkey : (key ∘ fun r ↦ if p r then f r else r) = key := by
      funext r
      cases hp : p r with
      | true => simp [hp, hf]
      | false => simp [hp]
    rw [hkey]
    exact t.nodup

section Operations

variable [DecidableEq κ]

/-- The row under a key. -/
def find? (t : Keyed key) (k : κ) : Option ρ := t.rows.find? fun r ↦ key r = k

/-- `INSERT`. Refused when the key is taken. -/
def insert (t : Keyed key) (r : ρ) : Option (Keyed key) :=
  if h : key r ∈ t.rows.map key then none
  else some ⟨t.rows ++ [r], by
    rw [List.map_append, List.map_singleton]
    exact t.nodup.append (List.nodup_singleton _) (by simpa using h)⟩

/-- `UPDATE … WHERE key = k`. -/
def modify (t : Keyed key) (k : κ) (f : ρ → ρ) (hf : ∀ r, key (f r) = key r := by
    intro r; rfl) : Keyed key :=
  t.modifyWhere (fun r ↦ key r = k) f hf

/-- `INSERT … ON CONFLICT (key) DO UPDATE`. -/
def upsert (t : Keyed key) (r : ρ) (f : ρ → ρ) (hf : ∀ r, key (f r) = key r := by
    intro r; rfl) : Keyed key :=
  (t.insert r).getD (t.modify (key r) f hf)

end Operations

/-- `DELETE`, by what is kept. -/
def filter (t : Keyed key) (p : ρ → Bool) : Keyed key where
  rows := t.rows.filter p
  nodup := (List.filter_sublist.map key).nodup t.nodup

/-! ## What the operations leave -/

@[simp] theorem rows_empty : (empty : Keyed key).rows = [] := rfl

@[simp] theorem rows_filter (t : Keyed key) (p : ρ → Bool) :
    (t.filter p).rows = t.rows.filter p := rfl

@[simp] theorem filter_empty (p : ρ → Bool) : (empty : Keyed key).filter p = empty := rfl

@[simp] theorem rows_modifyWhere (t : Keyed key) (p : ρ → Bool) {f : ρ → ρ}
    (hf : ∀ r, key (f r) = key r) :
    (t.modifyWhere p f hf).rows = t.rows.map fun r ↦ if p r then f r else r := rfl

theorem modifyWhere_eq_self {t : Keyed key} {p : ρ → Bool} {f : ρ → ρ}
    (hf : ∀ r, key (f r) = key r)
    (h : ∀ r ∈ t.rows, p r = false) : t.modifyWhere p f hf = t := by
  refine Keyed.ext ?_
  have hmap : (t.rows.map fun r ↦ if p r then f r else r) = t.rows.map id :=
    List.map_congr_left fun r hr ↦ by simp [h r hr]
  rw [rows_modifyWhere, hmap, List.map_id]

/-- Two rows of a table under one key are one row. -/
theorem eq_of_key_eq {t : Keyed key} {x y : ρ} (hx : x ∈ t.rows) (hy : y ∈ t.rows)
    (h : key x = key y) : x = y :=
  List.inj_on_of_nodup_map t.nodup hx hy h

section Operations

variable [DecidableEq κ] {t t' : Keyed key} {k : κ} {r : ρ} {f : ρ → ρ}

theorem insert_eq_some_iff :
    t.insert r = some t' ↔ (∀ x ∈ t.rows, key x ≠ key r) ∧ t'.rows = t.rows ++ [r] := by
  rw [insert]
  split
  · rename_i h
    obtain ⟨x, hx, hkey⟩ := List.mem_map.mp h
    exact iff_of_false (by simp) fun he ↦ he.1 x hx hkey
  · rename_i h
    refine ⟨fun he ↦ ?_, fun he ↦ congrArg some (Keyed.ext he.2.symm)⟩
    cases he
    exact ⟨fun x hx hkey ↦ h (List.mem_map.mpr ⟨x, hx, hkey⟩), rfl⟩

theorem insert_eq_none_iff : t.insert r = none ↔ ∃ x ∈ t.rows, key x = key r := by
  rw [insert]
  split
  · rename_i h
    exact iff_of_true rfl (List.mem_map.mp h)
  · rename_i h
    exact iff_of_false (by simp) fun hx ↦ h (List.mem_map.mpr hx)

theorem rows_of_insert (h : t.insert r = some t') : t'.rows = t.rows ++ [r] :=
  (insert_eq_some_iff.mp h).2

@[simp] theorem rows_modify (hf : ∀ r, key (f r) = key r) :
    (t.modify k f hf).rows = t.rows.map fun r ↦ if key r = k then f r else r := by
  simp [modify, modifyWhere]

/-- An update leaves the keys. -/
theorem keys_modify (t : Keyed key) (k : κ) {f : ρ → ρ} (hf : ∀ r, key (f r) = key r) :
    (t.modify k f hf).rows.map key = t.rows.map key := by
  rw [rows_modify, List.map_map]
  refine List.map_congr_left fun r _ ↦ ?_
  rw [Function.comp_apply]
  split
  · exact hf r
  · rfl

theorem rows_upsert_of_mem (hf : ∀ r, key (f r) = key r) (h : ∃ x ∈ t.rows, key x = key r) :
    (t.upsert r f hf).rows = t.rows.map fun x ↦ if key x = key r then f x else x := by
  rw [upsert, insert_eq_none_iff.mpr h, Option.getD_none, rows_modify]

theorem rows_upsert_of_not_mem (hf : ∀ r, key (f r) = key r) (h : ∀ x ∈ t.rows, key x ≠ key r) :
    (t.upsert r f hf).rows = t.rows ++ [r] := by
  have hi : t.insert r = some ((t.insert r).getD t) := by
    cases hn : t.insert r with
    | none =>
      obtain ⟨x, hx, hkey⟩ := insert_eq_none_iff.mp hn
      exact absurd hkey (h x hx)
    | some t' => rfl
  rw [upsert, hi, Option.getD_some]
  exact rows_of_insert hi

/-- A row of the table afterwards is the new one, or a renewed one, or an old one. -/
theorem mem_rows_upsert {x : ρ} (hf : ∀ r, key (f r) = key r) (h : x ∈ (t.upsert r f hf).rows) :
    x = r ∨ (∃ y, x = f y) ∨ x ∈ t.rows := by
  by_cases hmem : ∃ y ∈ t.rows, key y = key r
  · rw [rows_upsert_of_mem hf hmem] at h
    obtain ⟨y, hy, rfl⟩ := List.mem_map.mp h
    split_ifs
    · exact .inr (.inl ⟨y, rfl⟩)
    · exact .inr (.inr hy)
  · rw [rows_upsert_of_not_mem hf fun y hy heq ↦ hmem ⟨y, hy, heq⟩] at h
    rcases List.mem_append.mp h with h | h
    · exact .inr (.inr h)
    · exact .inl (List.mem_singleton.mp h)

theorem find?_eq_some_iff : t.find? k = some r ↔ r ∈ t.rows ∧ key r = k := by
  refine ⟨fun h ↦ ⟨List.mem_of_find?_eq_some h, by simpa using List.find?_some h⟩, ?_⟩
  rintro ⟨hr, rfl⟩
  cases hf : t.find? (key r) with
  | none => exact absurd (List.find?_eq_none.mp hf r hr) (by simp)
  | some x =>
    have hx : key x = key r := by simpa using List.find?_some hf
    rw [eq_of_key_eq (List.mem_of_find?_eq_some hf) hr hx]

theorem find?_eq_none_iff : t.find? k = none ↔ ∀ r ∈ t.rows, key r ≠ k := by
  simp [find?]

/-- What is under a key after an update. -/
theorem find?_modify (t : Keyed key) (k k' : κ) (hf : ∀ r, key (f r) = key r) :
    (t.modify k f hf).find? k' = if k' = k then (t.find? k').map f else t.find? k' := by
  rw [find?, find?, rows_modify, List.find?_map]
  have hcomp : ((fun r ↦ decide (key r = k')) ∘ fun r ↦ if key r = k then f r else r) =
      fun r ↦ decide (key r = k') := by
    funext r
    by_cases hr : key r = k
    · simp [hr, hf]
    · simp [hr]
  rw [hcomp]
  by_cases hk : k' = k
  · rw [if_pos hk]
    refine Option.map_congr fun r hr ↦ if_pos ?_
    rw [← hk]
    exact (find?_eq_some_iff.mp hr).2
  · rw [if_neg hk]
    have hother : ∀ r ∈ t.rows.find? fun r ↦ decide (key r = k'),
        (if key r = k then f r else r) = id r := by
      intro r hr
      have hkey : key r = k' := (find?_eq_some_iff.mp hr).2
      exact if_neg fun h ↦ hk (hkey.symm.trans h)
    rw [Option.map_congr hother, Option.map_id, id]

/-- What is under a key after an insert. -/
theorem find?_insert (h : t.insert r = some t') (k' : κ) :
    t'.find? k' = if k' = key r then some r else t.find? k' := by
  obtain ⟨hfresh, hrows⟩ := insert_eq_some_iff.mp h
  by_cases hk : k' = key r
  · rw [if_pos hk, find?_eq_some_iff]
    refine ⟨?_, hk.symm⟩
    rw [hrows]
    exact List.mem_append_right _ List.mem_cons_self
  · rw [if_neg hk, find?, hrows, List.find?_append, ← find?]
    have hnone : [r].find? (fun x ↦ decide (key x = k')) = none := by
      rw [List.find?_singleton, if_neg]
      rwa [decide_eq_true_eq, eq_comm]
    rw [hnone, Option.or_none]

/-- An update under a key without a row does nothing. -/
theorem modify_eq_self (hf : ∀ r, key (f r) = key r) (h : ∀ r ∈ t.rows, key r ≠ k) :
    t.modify k f hf = t := by
  refine Keyed.ext ?_
  have hmap : (t.rows.map fun r ↦ if key r = k then f r else r) = t.rows.map id :=
    List.map_congr_left fun r hr ↦ if_neg (h r hr)
  rw [rows_modify, hmap, List.map_id]

end Operations

/-! ## Deleting rows before or after -/

section Deletion

variable [DecidableEq κ] {t t' : Keyed key} {k : κ} {r : ρ} {f : ρ → ρ} {p : ρ → Bool}

/-- Inserting a row that is kept. -/
theorem filter_insert_of_keep (h : t.insert r = some t') (hr : p r = true) :
    (t.filter p).insert r = some (t'.filter p) := by
  obtain ⟨hfresh, hrows⟩ := insert_eq_some_iff.mp h
  refine insert_eq_some_iff.mpr ⟨fun x hx ↦ hfresh x (List.mem_of_mem_filter hx), ?_⟩
  rw [rows_filter, rows_filter, hrows, List.filter_append, List.filter_singleton, hr]
  rfl

/-- Inserting a row that is deleted. -/
theorem filter_insert_of_drop (h : t.insert r = some t') (hr : p r = false) :
    t'.filter p = t.filter p := by
  refine Keyed.ext ?_
  rw [rows_filter, rows_filter, rows_of_insert h, List.filter_append, List.filter_singleton, hr]
  simp

private theorem filter_map_eq (hf : ∀ x ∈ t.rows, key x = k → p (f x) = p x) :
    (t.rows.map fun x ↦ if key x = k then f x else x).filter p
      = (t.rows.filter p).map fun x ↦ if key x = k then f x else x := by
  rw [List.filter_map]
  refine congrArg _ (List.filter_congr fun x hx ↦ ?_)
  by_cases hk : key x = k
  · simp [hk, hf x hx hk]
  · simp [hk]

/-- Updating under a key commutes with a deletion that cannot see the update. -/
theorem filter_modify_of_stable (hkey : ∀ r, key (f r) = key r)
    (hf : ∀ x ∈ t.rows, key x = k → p (f x) = p x) :
    (t.modify k f hkey).filter p = (t.filter p).modify k f hkey := by
  refine Keyed.ext ?_
  rw [rows_filter, rows_modify, rows_modify, rows_filter, filter_map_eq hf]

/-- Updating a row that is deleted. -/
theorem filter_modify_of_drop (hkey : ∀ r, key (f r) = key r)
    (hf : ∀ x ∈ t.rows, key x = k → p (f x) = false ∧ p x = false) :
    (t.modify k f hkey).filter p = t.filter p := by
  rw [filter_modify_of_stable hkey fun x hx hk ↦ by rw [(hf x hx hk).1, (hf x hx hk).2]]
  refine modify_eq_self hkey fun x hx hk ↦ ?_
  have hx := List.mem_filter.mp hx
  rw [(hf x hx.1 hk).2] at hx
  exact Bool.noConfusion hx.2

/-- Upserting a row that is kept: the one that was there, or the new one. -/
theorem filter_upsert_of_keep (hkey : ∀ r, key (f r) = key r)
    (hr : (∀ x ∈ t.rows, key x ≠ key r) → p r = true)
    (hf : ∀ x ∈ t.rows, key x = key r → p (f x) = true ∧ p x = true) :
    (t.upsert r f hkey).filter p = (t.filter p).upsert r f hkey := by
  refine Keyed.ext ?_
  by_cases h : ∃ x ∈ t.rows, key x = key r
  · obtain ⟨x, hx, hxr⟩ := h
    have hmem : ∃ x ∈ (t.filter p).rows, key x = key r :=
      ⟨x, List.mem_filter.mpr ⟨hx, (hf x hx hxr).2⟩, hxr⟩
    rw [rows_filter, rows_upsert_of_mem hkey ⟨x, hx, hxr⟩, rows_upsert_of_mem hkey hmem,
      rows_filter]
    exact filter_map_eq fun y hy hyr ↦ by rw [(hf y hy hyr).1, (hf y hy hyr).2]
  · have h : ∀ x ∈ t.rows, key x ≠ key r := fun x hx hxr ↦ h ⟨x, hx, hxr⟩
    rw [rows_filter, rows_upsert_of_not_mem hkey h,
      rows_upsert_of_not_mem hkey fun x hx ↦ h x (List.mem_of_mem_filter hx), List.filter_append,
      rows_filter, List.filter_singleton, hr h]
    rfl

/-- Upserting a row that is deleted: the one that was there, or the new one. -/
theorem filter_upsert_of_drop (hkey : ∀ r, key (f r) = key r)
    (hr : (∀ x ∈ t.rows, key x ≠ key r) → p r = false)
    (hf : ∀ x ∈ t.rows, key x = key r → p (f x) = false ∧ p x = false) :
    (t.upsert r f hkey).filter p = t.filter p := by
  by_cases h : ∃ x ∈ t.rows, key x = key r
  · rw [upsert, insert_eq_none_iff.mpr h, Option.getD_none]
    exact filter_modify_of_drop hkey hf
  · have h : ∀ x ∈ t.rows, key x ≠ key r := fun x hx hxr ↦ h ⟨x, hx, hxr⟩
    refine Keyed.ext ?_
    rw [rows_filter, rows_upsert_of_not_mem hkey h, List.filter_append, List.filter_singleton,
      hr h, rows_filter]
    simp

end Deletion

end Keyed
