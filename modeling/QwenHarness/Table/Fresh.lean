import Mathlib.Data.List.Nodup
import Mathlib.Data.List.Perm.Subperm
import Mathlib.Order.Nat

/-!
# The first candidate that is free

Candidates are tried one after the other until one is not taken. If no two of them are equal, one
more than there are taken entries is enough, so the search always ends.
-/

namespace Fresh

variable {α : Type} [DecidableEq α]

/-- The first of the candidates from `n` on that is not taken, after at most so many more tries. -/
def firstFree (candidate : ℕ → α) (taken : List α) : ℕ → ℕ → α
  | 0, n => candidate n
  | tries + 1, n =>
    if candidate n ∈ taken then firstFree candidate taken tries (n + 1) else candidate n

variable {candidate : ℕ → α} {taken : List α} {tries n : ℕ}

theorem exists_firstFree (candidate : ℕ → α) (taken : List α) (tries n : ℕ) :
    ∃ m, n ≤ m ∧ firstFree candidate taken tries n = candidate m := by
  induction tries generalizing n with
  | zero => exact ⟨n, le_rfl, rfl⟩
  | succ tries ih =>
    rw [firstFree]
    split
    · obtain ⟨m, hm, heq⟩ := ih (n + 1)
      exact ⟨m, (Nat.le_succ n).trans hm, heq⟩
    · exact ⟨n, le_rfl, rfl⟩

/-- All the candidates before the one that the search ends with are taken. -/
theorem exists_firstFree_first (candidate : ℕ → α) (taken : List α) (tries n : ℕ) :
    ∃ m, n ≤ m ∧ firstFree candidate taken tries n = candidate m ∧
      ∀ k, n ≤ k → k < m → candidate k ∈ taken := by
  induction tries generalizing n with
  | zero => exact ⟨n, le_rfl, rfl, fun k hn hk ↦ absurd hk hn.not_gt⟩
  | succ tries ih =>
    rw [firstFree]
    split
    · next hmem =>
      obtain ⟨m, hm, heq, hfirst⟩ := ih (n + 1)
      refine ⟨m, (Nat.le_succ n).trans hm, heq, fun k hn hk ↦ ?_⟩
      rcases hn.eq_or_lt with rfl | hlt
      · exact hmem
      · exact hfirst k hlt hk
    · exact ⟨n, le_rfl, rfl, fun k hn hk ↦ absurd hk hn.not_gt⟩

/-- If what the search ends with is taken, so are all the candidates it tried. -/
theorem taken_of_firstFree (h : firstFree candidate taken tries n ∈ taken) :
    ∀ m, n ≤ m → m ≤ n + tries → candidate m ∈ taken := by
  induction tries generalizing n with
  | zero =>
    intro m hn hm
    obtain rfl : n = m := by omega
    exact h
  | succ tries ih =>
    rw [firstFree] at h
    split at h
    · next hmem =>
      intro m hn hm
      rcases hn.eq_or_lt with rfl | hlt
      · exact hmem
      · exact ih h m hlt (by omega)
    · next hmem => exact absurd h hmem

/-- **The search ends with a candidate that is free** if it may try as often as there are taken
entries. -/
theorem firstFree_not_mem (hinj : Function.Injective candidate) (htries : taken.length ≤ tries) :
    firstFree candidate taken tries n ∉ taken := by
  intro h
  have hall := taken_of_firstFree h
  let tried := (List.range (tries + 1)).map fun i ↦ candidate (n + i)
  have hnodup : tried.Nodup :=
    List.Nodup.map (fun i j hij ↦ by
      have hadd := hinj hij
      omega) List.nodup_range
  have hsub : tried ⊆ taken := fun x hx ↦ by
    obtain ⟨i, hi, rfl⟩ := List.mem_map.mp hx
    have := List.mem_range.mp hi
    exact hall _ (Nat.le_add_right _ _) (by omega)
  have hlength := (List.subperm_of_subset hnodup hsub).length_le
  rw [List.length_map, List.length_range] at hlength
  omega

end Fresh
