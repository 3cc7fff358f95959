import Mathlib.Data.List.MinMax

/-!
# The newest row

Of the rows a query finds, the one with the latest stamp, and of several the first. A row that is
added becomes the newest if its stamp is later than that of every row found before. An update that
leaves the stamp and the query alone changes the newest row, and nothing else.
-/

namespace Keyed

variable {ρ τ : Type} [LinearOrder τ]

/-- The newest row that `p` finds: `ORDER BY stamp DESC LIMIT 1`. -/
def newest (stamp : ρ → τ) (p : ρ → Bool) (rows : List ρ) : Option ρ := (rows.filter p).argmax stamp

variable {stamp : ρ → τ} {p : ρ → Bool} {rows : List ρ} {row : ρ}

theorem mem_of_newest (h : newest stamp p rows = some row) : row ∈ rows ∧ p row = true :=
  List.mem_filter.mp (List.argmax_mem h)

theorem stamp_le_newest (h : newest stamp p rows = some row) {x : ρ} (hx : x ∈ rows)
    (hp : p x = true) : stamp x ≤ stamp row :=
  List.le_of_mem_argmax (List.mem_filter.mpr ⟨hx, hp⟩) h

theorem newest_eq_none_iff : newest stamp p rows = none ↔ ∀ x ∈ rows, p x = false := by
  rw [newest, List.argmax_eq_none, List.filter_eq_nil_iff]
  simp only [Bool.not_eq_true]

private theorem argmax_concat_eq (l : List ρ) :
    (l ++ [row]).argmax stamp =
      if ∀ x ∈ l, stamp x < stamp row then some row else l.argmax stamp := by
  rw [List.argmax_concat]
  cases hm : l.argmax stamp with
  | none =>
    rw [List.argmax_eq_none] at hm
    rw [if_pos (by simp [hm])]
  | some m =>
    change (if stamp m < stamp row then some row else some m) = _
    by_cases hlt : stamp m < stamp row
    · rw [if_pos hlt, if_pos fun x hx ↦ (List.le_of_mem_argmax hx hm).trans_lt hlt]
    · rw [if_neg hlt, if_neg fun h ↦ hlt (h m (List.argmax_mem hm))]

/-- **A row that is added.** It is the newest if it is found and later than the others. -/
theorem newest_concat :
    newest stamp p (rows ++ [row]) =
      if p row = true ∧ ∀ x ∈ rows, p x = true → stamp x < stamp row then some row
      else newest stamp p rows := by
  rw [newest, List.filter_append]
  by_cases hp : p row = true
  · rw [List.filter_singleton, hp, Bool.cond_true, argmax_concat_eq]
    refine if_congr ?_ rfl rfl
    simp
  · rw [if_neg (fun h ↦ hp h.1), List.filter_singleton, Bool.eq_false_iff.mpr hp, Bool.cond_false,
      List.append_nil]
    rfl

/-- **An update.** The newest row stays the newest. -/
theorem newest_map {f : ρ → ρ} (hstamp : ∀ x, stamp (f x) = stamp x) (hp : ∀ x, p (f x) = p x) :
    newest stamp p (rows.map f) = (newest stamp p rows).map f := by
  induction rows using List.reverseRecOn with
  | nil => rfl
  | append_singleton rows row ih =>
    rw [List.map_append, List.map_singleton, newest_concat, newest_concat, ih]
    simp only [hp, hstamp, List.forall_mem_map]
    split <;> rfl

end Keyed
