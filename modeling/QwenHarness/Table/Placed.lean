import Mathlib.Data.List.Basic

/-!
# Filters that see the place

A list is filtered by a test of each element and its place, counted from the front. A part that is
let pass whole stays as it was, and what comes after a part is filtered with the places moved.
-/

namespace Placed

variable {α : Type}

/-- The elements that pass, each tested with its place. -/
def filterIdx (p : ℕ → α → Bool) : List α → List α
  | [] => []
  | x :: xs =>
    if p 0 x then x :: filterIdx (fun i ↦ p (i + 1)) xs else filterIdx (fun i ↦ p (i + 1)) xs

variable {p q : ℕ → α → Bool} {xs ys : List α}

@[simp] theorem filterIdx_nil (p : ℕ → α → Bool) : filterIdx p [] = [] := rfl

theorem filterIdx_cons (p : ℕ → α → Bool) (x : α) (xs : List α) : filterIdx p (x :: xs) =
    if p 0 x then x :: filterIdx (fun i ↦ p (i + 1)) xs else filterIdx (fun i ↦ p (i + 1)) xs := rfl

/-- The tests are asked at the places of the list only. -/
theorem filterIdx_congr (h : ∀ i x, xs[i]? = some x → p i x = q i x) :
    filterIdx p xs = filterIdx q xs := by
  induction xs generalizing p q with
  | nil => rfl
  | cons x xs ih =>
    have hrest := ih fun i y hy ↦ h (i + 1) y (by rwa [List.getElem?_cons_succ])
    rw [filterIdx_cons, filterIdx_cons, h 0 x rfl, hrest]

/-- A test that does not look at the places. -/
theorem filterIdx_const (f : α → Bool) (xs : List α) :
    filterIdx (fun _ ↦ f) xs = xs.filter f := by
  induction xs with
  | nil => rfl
  | cons x xs ih => rw [filterIdx_cons, ih, List.filter_cons]

theorem filterIdx_eq_self (h : ∀ i x, xs[i]? = some x → p i x = true) : filterIdx p xs = xs := by
  rw [filterIdx_congr (q := fun _ _ ↦ true) h, filterIdx_const, List.filter_true]

/-- A list in two parts: the places of the second go on from those of the first. -/
theorem filterIdx_append (p : ℕ → α → Bool) (xs ys : List α) :
    filterIdx p (xs ++ ys) = filterIdx p xs ++ filterIdx (fun i ↦ p (i + xs.length)) ys := by
  induction xs generalizing p with
  | nil => rfl
  | cons x xs ih =>
    rw [List.cons_append, filterIdx_cons, filterIdx_cons, ih]
    split_ifs
    · rfl
    · rfl

theorem filterIdx_sublist (p : ℕ → α → Bool) (xs : List α) : (filterIdx p xs).Sublist xs := by
  induction xs generalizing p with
  | nil => exact List.Sublist.slnil
  | cons x xs ih =>
    rw [filterIdx_cons]
    split_ifs
    · exact (ih _).cons_cons x
    · exact (ih _).cons x

/-- A map that keeps the marks. -/
theorem filterMap_mapIdx {β : Type} {f : α → Option β} {g : ℕ → α → α}
    (h : ∀ i x, f (g i x) = f x) (xs : List α) : (xs.mapIdx g).filterMap f = xs.filterMap f := by
  induction xs generalizing g with
  | nil => rfl
  | cons x xs ih =>
    rw [List.mapIdx_cons, List.filterMap_cons, List.filterMap_cons, h,
      ih fun i ↦ h (i + 1)]

/-- Two places of one mark are one place, where no mark comes twice. -/
theorem place_unique {β : Type} {f : α → Option β} {b : β} {i j : ℕ} {x y : α}
    (h : (xs.filterMap f).Nodup) (hi : xs[i]? = some x) (hj : xs[j]? = some y)
    (hx : f x = some b) (hy : f y = some b) : i = j := by
  induction xs generalizing i j with
  | nil => cases hi
  | cons a xs ih =>
    -- the mark of the first element comes nowhere else
    have hfirst {k : ℕ} {z : α} (ha : f a = some b) (hk : xs[k]? = some z) (hz : f z = some b) :
        False := by
      rw [List.filterMap_cons_some ha, List.nodup_cons] at h
      exact h.1 (List.mem_filterMap.mpr ⟨z, List.mem_of_getElem? hk, hz⟩)
    rcases i with - | i
    · rcases j with - | j
      · rfl
      · obtain rfl := Option.some.inj hi
        exact (hfirst hx hj hy).elim
    · rcases j with - | j
      · obtain rfl := Option.some.inj hj
        exact (hfirst hy hi hx).elim
      · have hrest : (xs.filterMap f).Nodup := by
          rcases ha : f a with - | c
          · rwa [List.filterMap_cons_none ha] at h
          · rw [List.filterMap_cons_some ha] at h
            exact h.of_cons
        rw [ih hrest hi hj]

end Placed
