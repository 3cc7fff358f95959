import QwenHarness.Table.Assoc
import QwenHarness.Table.First

/-!
# Putting rows in place

A row takes the place of the row with its key, or comes last. Where the place is found by going
through the rows, putting in many rows takes long; a map from keys to places, kept beside the rows,
finds it at once. Both ways end with the same rows: one for each key, in the order in which the keys
first came, and each the last that came with its key.
-/

namespace Keyed

variable {ρ κ : Type} [DecidableEq κ]

/-- Put a row in the place of the row with its key, or at the end. -/
def putRow (key : ρ → κ) (rows : List ρ) (r : ρ) : List ρ :=
  match rows.findIdx? fun r' ↦ key r' = key r with
  | some i => rows.set i r
  | none => rows ++ [r]

/-- Rows, and the place of each key. -/
structure Placing (ρ κ : Type) where
  rows : List ρ
  places : List (κ × ℕ)

namespace Placing

def empty : Placing ρ κ := ⟨[], []⟩

/-- Put a row in its place, or at the end, whose place is noted. -/
def put (key : ρ → κ) (t : Placing ρ κ) (r : ρ) : Placing ρ κ :=
  match t.places.lookup (key r) with
  | some i => { t with rows := t.rows.set i r }
  | none => ⟨t.rows ++ [r], Assoc.alter (key r) (fun _ ↦ t.rows.length) t.places⟩

/-- The places are those that one finds by going through the rows. -/
def Finds (key : ρ → κ) (t : Placing ρ κ) : Prop :=
  ∀ k, t.places.lookup k = t.rows.findIdx? fun r ↦ key r = k

end Placing

variable {key : ρ → κ} {rows : List ρ} {r x : ρ} {k : κ} {i : ℕ} {t : Placing ρ κ}

/-! ## One row -/

theorem findIdx?_eq_none_iff_key :
    (rows.findIdx? fun r ↦ key r = k) = none ↔ k ∉ rows.map key := by
  rw [List.findIdx?_eq_none_iff, List.mem_map, not_exists]
  simp only [decide_eq_false_iff_not, not_and]

/-- Where a key is found depends on the keys alone. -/
theorem findIdx?_congr {rows' : List ρ} (h : rows.map key = rows'.map key) (k : κ) :
    (rows.findIdx? fun r ↦ key r = k) = rows'.findIdx? fun r ↦ key r = k := by
  have hmap : ∀ rows : List ρ,
      (rows.findIdx? fun r ↦ key r = k) = (rows.map key).findIdx? fun k' ↦ k' = k := by
    intro rows
    rw [List.findIdx?_map]
    rfl
  rw [hmap, hmap, h]

theorem putRow_of_findIdx (h : (rows.findIdx? fun r' ↦ key r' = key r) = some i) :
    putRow key rows r = rows.set i r := by
  rw [putRow, h]

theorem putRow_of_notMem (h : key r ∉ rows.map key) : putRow key rows r = rows ++ [r] := by
  rw [putRow, findIdx?_eq_none_iff_key.mpr h]

/-- Where a row with a key is, there is a part before it without that key. -/
theorem exists_putRow (h : key r ∈ rows.map key) :
    ∃ before x after, rows = before ++ x :: after ∧ key x = key r ∧ key r ∉ before.map key ∧
      putRow key rows r = before ++ r :: after := by
  obtain ⟨i, hi⟩ : ∃ i, (rows.findIdx? fun r' ↦ key r' = key r) = some i := by
    by_contra hnone
    rw [not_exists] at hnone
    exact findIdx?_eq_none_iff_key.mp (Option.eq_none_iff_forall_ne_some.mpr hnone) h
  obtain ⟨hlt, hkey, hbefore⟩ := List.findIdx?_eq_some_iff_getElem.mp hi
  refine ⟨rows.take i, rows[i], rows.drop (i + 1), ?_, of_decide_eq_true hkey, ?_, ?_⟩
  · rw [List.getElem_cons_drop, List.take_append_drop]
  · rw [List.mem_map, not_exists]
    rintro x ⟨hx, hxr⟩
    obtain ⟨j, hj, rfl⟩ := List.mem_iff_getElem.mp hx
    rw [List.length_take, Nat.lt_min] at hj
    rw [List.getElem_take] at hxr
    exact hbefore j hj.1 (decide_eq_true hxr)
  · rw [putRow_of_findIdx hi, List.set_eq_take_append_cons_drop, if_pos hlt]

theorem map_key_putRow : (putRow key rows r).map key =
    if key r ∈ rows.map key then rows.map key else rows.map key ++ [key r] := by
  split_ifs with h
  · obtain ⟨before, x, after, hrows, hx, -, hputRow⟩ := exists_putRow h
    rw [hputRow, hrows, List.map_append, List.map_append, List.map_cons, List.map_cons, hx]
  · rw [putRow_of_notMem h, List.map_append]
    rfl

theorem mem_putRow_self : r ∈ putRow key rows r := by
  by_cases h : key r ∈ rows.map key
  · obtain ⟨before, x, after, -, -, -, hputRow⟩ := exists_putRow h
    rw [hputRow]
    exact List.mem_append_right _ List.mem_cons_self
  · rw [putRow_of_notMem h]
    exact List.mem_append_right _ List.mem_cons_self

/-- The other rows stay. -/
theorem mem_putRow_of_mem (hx : x ∈ rows) (hne : key x ≠ key r) : x ∈ putRow key rows r := by
  by_cases h : key r ∈ rows.map key
  · obtain ⟨before, y, after, rfl, hy, -, hputRow⟩ := exists_putRow h
    rw [hputRow, List.mem_append, List.mem_cons]
    rcases List.mem_append.mp hx with hx | hx
    · exact .inl hx
    · rcases List.mem_cons.mp hx with rfl | hx
      · exact absurd hy hne
      · exact .inr (.inr hx)
  · rw [putRow_of_notMem h]
    exact List.mem_append_left _ hx

/-- A row is the one that was put in, or one of another key, if no two had one key. -/
theorem eq_or_mem_of_mem_putRow (hnodup : (rows.map key).Nodup) (hx : x ∈ putRow key rows r) :
    x = r ∨ (x ∈ rows ∧ key x ≠ key r) := by
  by_cases h : key r ∈ rows.map key
  · obtain ⟨before, y, after, rfl, hy, hbefore, hputRow⟩ := exists_putRow h
    rw [List.map_append, List.map_cons, hy] at hnodup
    have hafter : key r ∉ after.map key :=
      (List.nodup_cons.mp (List.nodup_append.mp hnodup).2.1).1
    rw [hputRow, List.mem_append, List.mem_cons] at hx
    rcases hx with hx | rfl | hx
    · exact .inr ⟨List.mem_append_left _ hx, fun heq ↦ hbefore (heq ▸ List.mem_map_of_mem hx)⟩
    · exact .inl rfl
    · exact .inr ⟨List.mem_append_right _ (List.mem_cons_of_mem _ hx),
        fun heq ↦ hafter (heq ▸ List.mem_map_of_mem hx)⟩
  · rw [putRow_of_notMem h, List.mem_append, List.mem_singleton] at hx
    exact hx.symm.imp_right fun hx ↦ ⟨hx, fun heq ↦ h (heq ▸ List.mem_map_of_mem hx)⟩

/-! ## Many rows -/

theorem map_key_foldl_putRow (rs : List ρ) :
    (rs.foldl (putRow key) []).map key = firsts id [] (rs.map key) := by
  induction rs using List.reverseRecOn with
  | nil => rfl
  | append_singleton rs r ih =>
    rw [List.foldl_append, List.foldl_cons, List.foldl_nil, map_key_putRow, ih, List.map_append,
      firsts_append, List.append_nil, List.map_id, List.map_singleton, firsts_cons, firsts_nil]
    have hmem : key r ∈ firsts id [] (rs.map key) ↔ key r ∈ rs.map key := by
      have hor : key r ∈ (firsts id [] (rs.map key)).map id ∨ key r ∈ ([] : List κ) ↔
          key r ∈ (rs.map key).map id ∨ key r ∈ ([] : List κ) := mem_map_firsts_or
      simpa using hor
    by_cases h : key r ∈ rs.map key
    · rw [if_pos (hmem.mpr h), if_pos (by exact h), List.append_nil]
    · rw [if_neg (mt hmem.mp h), if_neg (by exact h)]
      rfl

/-- One row for each key. -/
theorem nodup_foldl_putRow (rs : List ρ) : ((rs.foldl (putRow key) []).map key).Nodup := by
  rw [map_key_foldl_putRow]
  have hnodup : ((firsts id [] (rs.map key)).map id).Nodup := nodup_map_firsts [] (rs.map key)
  rwa [List.map_id] at hnodup

/-- **The last of each key.** -/
theorem getLast?_of_mem_foldl_putRow (rs : List ρ) (hx : x ∈ rs.foldl (putRow key) []) :
    (rs.filter fun r ↦ key r = key x).getLast? = some x := by
  induction rs using List.reverseRecOn with
  | nil => exact absurd hx List.not_mem_nil
  | append_singleton rs r ih =>
    rw [List.foldl_append, List.foldl_cons, List.foldl_nil] at hx
    rw [List.filter_append]
    rcases eq_or_mem_of_mem_putRow (nodup_foldl_putRow rs) hx with rfl | ⟨hx, hne⟩
    · rw [List.filter_cons_of_pos (by simp), List.filter_nil, List.getLast?_concat]
    · rw [List.filter_cons_of_neg (by simpa using hne.symm), List.filter_nil, List.append_nil]
      exact ih hx

/-! ## With places -/

namespace Placing

theorem finds_empty : (empty : Placing ρ κ).Finds key := fun _ ↦ rfl

/-- **A step with places.** It puts the row where going through the rows does. -/
theorem Finds.rows_put (h : t.Finds key) (r : ρ) : (t.put key r).rows = putRow key t.rows r := by
  rw [put, h (key r), putRow]
  split <;> rfl

theorem Finds.put (h : t.Finds key) (r : ρ) : (t.put key r).Finds key := by
  intro k
  rw [h.rows_put, Placing.put, h (key r)]
  rcases hi : t.rows.findIdx? fun r' ↦ key r' = key r with - | i
  · have hnew := findIdx?_eq_none_iff_key.mp hi
    rw [putRow_of_notMem hnew, Assoc.lookup_alter, List.findIdx?_append, h k]
    by_cases hk : k = key r
    · subst hk
      rw [if_pos rfl, hi, List.findIdx?_singleton, decide_eq_true rfl]
      simp
    · rw [if_neg hk, List.findIdx?_singleton, decide_eq_false (Ne.symm hk)]
      simp
  · have hmem : key r ∈ t.rows.map key := by
      by_contra hnew
      rw [findIdx?_eq_none_iff_key.mpr hnew] at hi
      exact absurd hi.symm (Option.some_ne_none i)
    have hkeys : (putRow key t.rows r).map key = t.rows.map key := by
      rw [map_key_putRow, if_pos hmem]
    exact (h k).trans (findIdx?_congr hkeys.symm k)

/-- **Many steps with places.** -/
theorem rows_foldl_put (rs : List ρ) :
    (rs.foldl (put key) empty).rows = rs.foldl (putRow key) [] := by
  have hrun : ∀ (rs : List ρ) (t : Placing ρ κ), t.Finds key →
      (rs.foldl (put key) t).rows = rs.foldl (putRow key) t.rows := by
    intro rs
    induction rs with
    | nil => exact fun t _ ↦ rfl
    | cons r rs ih =>
      intro t h
      rw [List.foldl_cons, List.foldl_cons, ih _ (h.put r), h.rows_put]
  exact hrun rs _ finds_empty

end Placing

end Keyed
