import Mathlib.Algebra.GroupWithZero.Nat
import Mathlib.Data.List.Sort

/-!
# Rows in a stable order, taken while they fit

Rows are sorted, and taken from the front until one of them costs too much. What is taken does not
depend on the rows behind it, so a row that is added pushes out only rows that come after it.
-/

namespace Ranked

/-! ## One more row to sort -/

section Insert

variable {α : Type} {r : α → α → Prop} [DecidableRel r]

theorem orderedInsert_of_forall {x : α} {l : List α} (h : ∀ y ∈ l, r x y) :
    l.orderedInsert r x = x :: l := by
  rcases l with - | ⟨y, l⟩
  · rfl
  · exact List.orderedInsert_cons_of_le r l (h y List.mem_cons_self)

/-- Two sorted lists that differ by one row differ by it when `x` has been inserted in both. -/
theorem exists_orderedInsert_insert [IsTrans α r] (x d : α) {a b : List α}
    (h : (a ++ d :: b).Pairwise r) :
    ∃ a' b', (a ++ d :: b).orderedInsert r x = a' ++ d :: b' ∧
      (a ++ b).orderedInsert r x = a' ++ b' := by
  induction a with
  | nil =>
    rw [List.nil_append, List.nil_append, List.orderedInsert_cons]
    split_ifs with hx
    · have hall : ∀ y ∈ b, r x y := fun y hy ↦ trans_of r hx (List.rel_of_pairwise_cons h hy)
      exact ⟨[x], b, rfl, orderedInsert_of_forall hall⟩
    · exact ⟨[], b.orderedInsert r x, rfl, rfl⟩
  | cons y a ih =>
    rw [List.cons_append, List.cons_append, List.orderedInsert_cons, List.orderedInsert_cons]
    split_ifs with hx
    · exact ⟨x :: y :: a, b, rfl, rfl⟩
    · obtain ⟨a', b', hwith, hwithout⟩ := ih (List.pairwise_cons.mp h).2
      exact ⟨y :: a', b', by rw [hwith]; rfl, by rw [hwithout]; rfl⟩

/-- **One more row.** It comes between the others, whose order stays. -/
theorem exists_insertionSort_insert [IsTrans α r] [Std.Total r] (d : α) (l₁ l₂ : List α) :
    ∃ a b, (l₁ ++ d :: l₂).insertionSort r = a ++ d :: b ∧
      (l₁ ++ l₂).insertionSort r = a ++ b := by
  induction l₁ with
  | nil =>
    rw [List.nil_append, List.nil_append, List.insertionSort_cons,
      List.orderedInsert_eq_take_drop]
    exact ⟨_, _, rfl, List.takeWhile_append_dropWhile.symm⟩
  | cons x l₁ ih =>
    obtain ⟨a, b, hwith, hwithout⟩ := ih
    rw [List.cons_append, List.cons_append, List.insertionSort_cons, List.insertionSort_cons,
      hwith, hwithout]
    exact exists_orderedInsert_insert x d (hwith ▸ List.pairwise_insertionSort r _)

end Insert

/-! ## Rows that fit -/

section Taken

variable {α : Type} (cost : α → ℕ) (fits : ℕ → Bool)

/-- What has been used once all the rows are paid. -/
def spent (used : ℕ) (l : List α) : ℕ := used + (l.map cost).sum

/-- How many rows are taken from the front before one does not fit. -/
def taken : ℕ → List α → ℕ
  | _, [] => 0
  | used, x :: l => if fits (used + cost x) then taken (used + cost x) l + 1 else 0

variable {cost fits} {used n : ℕ} {l : List α}

theorem spent_cons (x : α) (l : List α) :
    spent cost used (x :: l) = spent cost (used + cost x) l := by
  rw [spent, spent, List.map_cons, List.sum_cons, Nat.add_assoc]

theorem used_le_spent : used ≤ spent cost used l := Nat.le_add_right _ _

theorem taken_le_length (used : ℕ) (l : List α) : taken cost fits used l ≤ l.length := by
  induction l generalizing used with
  | nil => exact Nat.le_refl 0
  | cons x l ih =>
    rw [taken]
    split_ifs
    · exact Nat.succ_le_succ (ih _)
    · exact Nat.zero_le _

/-- Rows behind do not change what is taken of those before. -/
theorem min_taken_append (used : ℕ) (a l : List α) :
    min (taken cost fits used (a ++ l)) a.length = taken cost fits used a := by
  induction a generalizing used with
  | nil => exact Nat.min_zero _
  | cons x a ih =>
    rw [List.cons_append, taken, taken, List.length_cons]
    split_ifs
    · rw [Nat.add_min_add_right, ih]
    · exact Nat.zero_min _

/-- **The rows taken.** They are as many as fit together. -/
theorem le_taken_iff (hfits : ∀ m n, m ≤ n → fits n = true → fits m = true)
    (hused : fits used = true) (hn : n ≤ l.length) :
    n ≤ taken cost fits used l ↔ fits (spent cost used (l.take n)) = true := by
  induction l generalizing used n with
  | nil => exact iff_of_true hn (by rw [List.take_nil]; exact hused)
  | cons x l ih =>
    rcases n with - | n
    · exact iff_of_true (Nat.zero_le _) hused
    · rw [taken, List.take_succ_cons, spent_cons]
      split_ifs with hx
      · rw [Nat.succ_le_succ_iff, ih hx (Nat.le_of_succ_le_succ hn)]
      · exact iff_of_false (Nat.not_succ_le_zero n) fun h ↦ hx (hfits _ _ used_le_spent h)

theorem fits_spent_taken (hfits : ∀ m n, m ≤ n → fits n = true → fits m = true)
    (hused : fits used = true) :
    fits (spent cost used (l.take (taken cost fits used l))) = true :=
  (le_taken_iff hfits hused (taken_le_length used l)).mp (Nat.le_refl _)

end Taken

end Ranked
