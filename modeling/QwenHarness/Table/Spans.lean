import Mathlib.Data.Nat.Notation
import Mathlib.Order.Lattice

/-!
# Searching spans

A list of spans is searched for one that holds a value, by halves. Spans may overlap: it is enough
that both their starts and their ends are in order.
-/

namespace Spans

variable {α : Type} [LinearOrder α]

/-- The spans from place `lo` on and before place `hi`, searched by halves. -/
def search (spans : List (α × α)) (x : α) (lo hi : ℕ) : Bool :=
  if lo < hi then
    let mid := (lo + hi - 1) / 2
    match spans[mid]? with
    | none => false
    | some span =>
      if x < span.1 then search spans x lo mid
      else if span.2 < x then search spans x (mid + 1) hi
      else true
  else false
termination_by hi - lo

/-- A span holds a value between its ends, which belong to it. -/
def Holds (span : α × α) (x : α) : Prop := span.1 ≤ x ∧ x ≤ span.2

/-- The starts are in order, and so are the ends. -/
def AreOrdered (spans : List (α × α)) : Prop :=
  spans.Pairwise fun a b ↦ a.1 ≤ b.1 ∧ a.2 ≤ b.2

variable {spans : List (α × α)} {x : α} {lo hi i j : ℕ} {a b : α × α}

theorem AreOrdered.le (h : AreOrdered spans) (hi : spans[i]? = some a) (hj : spans[j]? = some b)
    (hij : i ≤ j) : a.1 ≤ b.1 ∧ a.2 ≤ b.2 := by
  obtain ⟨hilt, rfl⟩ := List.getElem?_eq_some_iff.mp hi
  obtain ⟨hjlt, rfl⟩ := List.getElem?_eq_some_iff.mp hj
  rcases Nat.lt_or_eq_of_le hij with hlt | rfl
  · exact List.pairwise_iff_getElem.mp h i j hilt hjlt hlt
  · exact ⟨le_rfl, le_rfl⟩

/-- What is found is there. -/
theorem exists_of_search (h : search spans x lo hi = true) : ∃ span ∈ spans, Holds span x := by
  fun_induction search spans x lo hi with
  | case1 lo hi hlt mid hnone => exact absurd h Bool.false_ne_true
  | case2 lo hi hlt mid span hspan hbelow ih => exact ih h
  | case3 lo hi hlt mid span hspan hbelow habove ih => exact ih h
  | case4 lo hi hlt mid span hspan hbelow habove =>
    exact ⟨span, List.mem_of_getElem? hspan, not_lt.mp hbelow, not_lt.mp habove⟩
  | case5 lo hi hlt => exact absurd h Bool.false_ne_true

/-- What is there is found, wherever it is between the bounds. -/
theorem search_of_holds (hspans : AreOrdered spans) (hhi : hi ≤ spans.length)
    (hj : spans[j]? = some b) (hlo : lo ≤ j) (hjhi : j < hi) (hb : Holds b x) :
    search spans x lo hi = true := by
  fun_induction search spans x lo hi with
  | case1 lo hi hlt mid hnone =>
    have hmid : mid = (lo + hi - 1) / 2 := rfl
    rw [List.getElem?_eq_none_iff] at hnone
    omega
  | case2 lo hi hlt mid span hspan hbelow ih =>
    -- every span from the middle on begins behind the value
    have hjmid : j < mid := by
      by_contra hle
      have hstart := (hspans.le hspan hj (Nat.not_lt.mp hle)).1
      exact absurd (le_trans hstart hb.1) (not_le.mpr hbelow)
    have hmid : mid = (lo + hi - 1) / 2 := rfl
    exact ih (by omega) hlo hjmid
  | case3 lo hi hlt mid span hspan hbelow habove ih =>
    -- every span up to the middle ends before the value
    have hmidj : mid < j := by
      by_contra hle
      have hend := (hspans.le hj hspan (Nat.not_lt.mp hle)).2
      exact absurd (le_trans hb.2 hend) (not_le.mpr habove)
    exact ih hhi hmidj hjhi
  | case4 lo hi hlt mid span hspan hbelow habove => rfl
  | case5 lo hi hlt => omega

/-- **Searching by halves** finds exactly the values that a span holds. -/
theorem search_iff (hspans : AreOrdered spans) :
    search spans x 0 spans.length = true ↔ ∃ span ∈ spans, Holds span x := by
  refine ⟨exists_of_search, ?_⟩
  rintro ⟨b, hmem, hb⟩
  obtain ⟨j, hj⟩ := List.mem_iff_getElem?.mp hmem
  have hlt := (List.getElem?_eq_some_iff.mp hj).1
  exact search_of_holds hspans (Nat.le_refl _) hj (Nat.zero_le j) hlt hb

end Spans
