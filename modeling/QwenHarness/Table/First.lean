import Mathlib.Data.List.Nodup

/-!
# The first of each key

A list with every entry left out whose key has come before. What is left is a subset, one entry for
each key, and leaving out once more changes nothing, so that merging lists this way is associative.
It is not commutative, except where entries under one key are the same.
-/

namespace Keyed

variable {α κ : Type} [DecidableEq κ]

/-- The entries whose key is neither `seen` nor the key of an entry before. -/
def firsts (key : α → κ) (seen : List κ) : List α → List α
  | [] => []
  | x :: xs =>
    if key x ∈ seen then firsts key seen xs else x :: firsts key (key x :: seen) xs

variable {key : α → κ}

@[simp] theorem firsts_nil (seen : List κ) : firsts key seen [] = [] := rfl

theorem firsts_cons (seen : List κ) (x : α) (xs : List α) : firsts key seen (x :: xs) =
    if key x ∈ seen then firsts key seen xs else x :: firsts key (key x :: seen) xs := rfl

theorem mem_firsts_iff {seen : List κ} {xs : List α} {x : α} :
    x ∈ firsts key seen xs ↔
      key x ∉ seen ∧ ∃ before after, xs = before ++ x :: after ∧
        ∀ y ∈ before, key y ≠ key x := by
  induction xs generalizing seen with
  | nil => simp
  | cons a xs ih =>
    rw [firsts_cons]
    by_cases ha : key a ∈ seen
    · rw [if_pos ha, ih]
      constructor
      · rintro ⟨hx, before, after, rfl, hb⟩
        refine ⟨hx, a :: before, after, rfl, List.forall_mem_cons.mpr ⟨?_, hb⟩⟩
        rintro heq
        exact hx (heq ▸ ha)
      · rintro ⟨hx, before, after, heq, hb⟩
        rcases before with - | ⟨b, before⟩
        · obtain ⟨rfl, rfl⟩ := List.cons.inj heq
          exact absurd ha hx
        · obtain ⟨rfl, rfl⟩ := List.cons.inj heq
          exact ⟨hx, before, after, rfl, (List.forall_mem_cons.mp hb).2⟩
    · rw [if_neg ha, List.mem_cons, ih]
      constructor
      · rintro (rfl | ⟨hx, before, after, rfl, hb⟩)
        · exact ⟨ha, [], xs, rfl, by simp⟩
        · rw [List.mem_cons, not_or] at hx
          exact ⟨hx.2, a :: before, after, rfl, List.forall_mem_cons.mpr ⟨Ne.symm hx.1, hb⟩⟩
      · rintro ⟨hx, before, after, heq, hb⟩
        rcases before with - | ⟨b, before⟩
        · obtain ⟨rfl, rfl⟩ := List.cons.inj heq
          exact .inl rfl
        · obtain ⟨rfl, rfl⟩ := List.cons.inj heq
          rw [List.forall_mem_cons] at hb
          refine .inr ⟨?_, before, after, rfl, hb.2⟩
          rw [List.mem_cons, not_or]
          exact ⟨Ne.symm hb.1, hx⟩

theorem firsts_subset {seen : List κ} {xs : List α} : firsts key seen xs ⊆ xs := by
  intro x hx
  obtain ⟨-, before, after, rfl, -⟩ := mem_firsts_iff.mp hx
  simp

theorem nodup_map_firsts (seen : List κ) (xs : List α) :
    ((firsts key seen xs).map key).Nodup := by
  induction xs generalizing seen with
  | nil => exact List.nodup_nil
  | cons a xs ih =>
    rw [firsts_cons]
    split
    · exact ih seen
    · rw [List.map_cons, List.nodup_cons, List.mem_map]
      refine ⟨?_, ih _⟩
      rintro ⟨x, hx, heq⟩
      exact (mem_firsts_iff.mp hx).1 (heq ▸ List.mem_cons_self)

/-- Whatever is left out is left out for an entry with its key. -/
theorem exists_mem_firsts {seen : List κ} {xs : List α} {x : α} (hx : x ∈ xs)
    (hs : key x ∉ seen) : ∃ y ∈ firsts key seen xs, key y = key x := by
  induction xs generalizing seen with
  | nil => cases hx
  | cons a xs ih =>
    rw [firsts_cons]
    by_cases hk : key a = key x
    · rw [if_neg (hk ▸ hs)]
      exact ⟨a, List.mem_cons_self, hk⟩
    · rcases List.mem_cons.mp hx with rfl | hx
      · exact absurd rfl hk
      · by_cases ha : key a ∈ seen
        · rw [if_pos ha]
          exact ih hx hs
        · rw [if_neg ha]
          have hnew : key x ∉ key a :: seen := by
            rw [List.mem_cons, not_or]
            exact ⟨Ne.symm hk, hs⟩
          obtain ⟨y, hy, hyx⟩ := ih hx hnew
          exact ⟨y, List.mem_cons_of_mem _ hy, hyx⟩

/-- Only which keys are seen matters. -/
theorem firsts_congr {seen seen' : List κ} (h : ∀ k, k ∈ seen ↔ k ∈ seen') (xs : List α) :
    firsts key seen xs = firsts key seen' xs := by
  induction xs generalizing seen seen' with
  | nil => rfl
  | cons a xs ih =>
    rw [firsts_cons, firsts_cons]
    by_cases ha : key a ∈ seen
    · rw [if_pos ha, if_pos ((h _).mp ha), ih h]
    · rw [if_neg ha, if_neg (fun hn ↦ ha ((h _).mpr hn))]
      exact congrArg (a :: ·) (ih fun k ↦ by rw [List.mem_cons, List.mem_cons, h])

theorem firsts_append (seen : List κ) (xs ys : List α) :
    firsts key seen (xs ++ ys) = firsts key seen xs ++ firsts key (xs.map key ++ seen) ys := by
  induction xs generalizing seen with
  | nil => rfl
  | cons a xs ih =>
    rw [List.cons_append, firsts_cons, firsts_cons]
    by_cases ha : key a ∈ seen
    · rw [if_pos ha, if_pos ha, ih]
      refine congrArg _ (firsts_congr (fun k ↦ ?_) ys)
      simp only [List.map_cons, List.cons_append, List.mem_cons, List.mem_append]
      constructor
      · exact .inr
      · rintro (rfl | h)
        · exact .inr ha
        · exact h
    · rw [if_neg ha, if_neg ha, ih, List.cons_append]
      refine congrArg (a :: ·) (congrArg _ (firsts_congr (fun k ↦ ?_) ys))
      simp only [List.map_cons, List.cons_append, List.mem_cons, List.mem_append]
      exact or_left_comm

/-- The keys of what is left, besides those seen, are the keys there were. -/
theorem mem_map_firsts_or {seen : List κ} {xs : List α} {k : κ} :
    k ∈ (firsts key seen xs).map key ∨ k ∈ seen ↔ k ∈ xs.map key ∨ k ∈ seen := by
  by_cases hk : k ∈ seen
  · simp [hk]
  · rw [or_iff_left hk, or_iff_left hk]
    constructor
    · intro h
      obtain ⟨x, hx, rfl⟩ := List.mem_map.mp h
      exact List.mem_map_of_mem (firsts_subset hx)
    · intro h
      obtain ⟨x, hx, rfl⟩ := List.mem_map.mp h
      obtain ⟨y, hy, hyx⟩ := exists_mem_firsts hx hk
      exact List.mem_map.mpr ⟨y, hy, hyx⟩

/-- Nothing more is left out the second time. -/
theorem firsts_firsts (seen : List κ) (xs : List α) :
    firsts key seen (firsts key seen xs) = firsts key seen xs := by
  induction xs generalizing seen with
  | nil => rfl
  | cons a xs ih =>
    rw [firsts_cons]
    by_cases ha : key a ∈ seen
    · rw [if_pos ha, ih]
    · rw [if_neg ha, firsts, if_neg ha, ih]

/-- Leaving out within a part first changes nothing. -/
theorem firsts_firsts_append (seen : List κ) (xs ys : List α) :
    firsts key seen (firsts key seen xs ++ ys) = firsts key seen (xs ++ ys) := by
  rw [firsts_append, firsts_append, firsts_firsts]
  refine congrArg _ (firsts_congr (fun k ↦ ?_) ys)
  rw [List.mem_append, List.mem_append]
  exact mem_map_firsts_or

/-- Leaving out within the last part first changes nothing either. -/
theorem firsts_append_firsts (seen : List κ) (xs ys : List α) :
    firsts key seen (xs ++ firsts key [] ys) = firsts key seen (xs ++ ys) := by
  rw [firsts_append, firsts_append]
  refine congrArg _ ?_
  generalize xs.map key ++ seen = seen'
  have step : ∀ (s : List κ) (zs : List α), (∀ k ∈ s, k ∈ seen') →
      firsts key seen' (firsts key s zs) = firsts key seen' zs := by
    intro s zs hs
    induction zs generalizing s seen' with
    | nil => rfl
    | cons a zs ih =>
      rw [firsts_cons]
      by_cases ha : key a ∈ s
      · rw [if_pos ha, ih _ _ hs, firsts, if_pos (hs _ ha)]
      · rw [if_neg ha, firsts_cons, firsts_cons]
        by_cases ha' : key a ∈ seen'
        · rw [if_pos ha', if_pos ha', ih]
          exact List.forall_mem_cons.mpr ⟨ha', hs⟩
        · rw [if_neg ha', if_neg ha', ih]
          exact List.forall_mem_cons.mpr
            ⟨List.mem_cons_self, fun k hk ↦ List.mem_cons_of_mem _ (hs k hk)⟩
  exact step [] ys (by simp)

end Keyed
