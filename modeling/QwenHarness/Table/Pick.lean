import Mathlib.Data.List.Induction

/-!
# The entry a scan ends with

A scan goes through a list and keeps one entry, which a later one may replace. Where replacing is
the strict part of a total preorder, or its complement the other way round, how a list is cut
makes no difference: the scan of the whole is the scan of what the scans of its parts end with.

So an entry put anywhere into the list either is what the scan ends with, or might as well not be
there.
-/

namespace Pick

variable {α : Type}

/-- Keep the better of two entries, where there are two. -/
def better (replaces : α → α → Bool) : Option α → Option α → Option α
  | none, x => x
  | some b, none => some b
  | some b, some x => if replaces b x then some x else some b

/-- What a scan of the list ends with. -/
def pick (replaces : α → α → Bool) (xs : List α) : Option α :=
  xs.foldl (fun best x ↦ better replaces best (some x)) none

variable {replaces : α → α → Bool} {xs ys : List α} {x y : α}

theorem better_none (o : Option α) : better replaces o none = o := by cases o <;> rfl

/-- A scan that has kept an entry goes on to keep one. -/
theorem foldl_mem (b : α) : ∃ c ∈ b :: xs,
    xs.foldl (fun best x ↦ better replaces best (some x)) (some b) = some c := by
  induction xs generalizing b with
  | nil => exact ⟨b, List.mem_cons_self, rfl⟩
  | cons a xs ih =>
    have hkeep : better replaces (some b) (some a) = some b ∨
        better replaces (some b) (some a) = some a := by
      rw [better]
      split
      · exact .inr rfl
      · exact .inl rfl
    rw [List.foldl_cons]
    rcases hkeep with h | h
    · obtain ⟨c, hc, hfold⟩ := ih b
      refine ⟨c, ?_, by rw [h, hfold]⟩
      rcases List.mem_cons.mp hc with rfl | hc
      · exact List.mem_cons_self
      · exact List.mem_cons_of_mem _ (List.mem_cons_of_mem _ hc)
    · obtain ⟨c, hc, hfold⟩ := ih a
      exact ⟨c, List.mem_cons_of_mem _ hc, by rw [h, hfold]⟩

/-- The scan of a list that is not empty ends with one of its entries. -/
theorem exists_pick (replaces : α → α → Bool) (hx : x ∈ xs) :
    ∃ c ∈ xs, pick replaces xs = some c := by
  cases xs with
  | nil => cases hx
  | cons a xs => exact foldl_mem a

theorem pick_mem (h : pick replaces xs = some x) : x ∈ xs := by
  cases xs with
  | nil => cases h
  | cons a xs =>
    obtain ⟨c, hc, hpick⟩ := exists_pick replaces (List.mem_cons_self (a := a))
    exact Option.some.inj (h.symm.trans hpick) ▸ hc

theorem not_mem_of_pick_eq_none (h : pick replaces xs = none) (y : α) : y ∉ xs := fun hy ↦ by
  obtain ⟨c, -, hc⟩ := exists_pick replaces hy
  rw [h] at hc
  cases hc

section Preorder

variable (htrans : ∀ a b c, replaces a b → replaces b c → replaces a c)
  (hkeep : ∀ a b c, ¬ replaces a b → ¬ replaces b c → ¬ replaces a c)

include htrans hkeep

theorem better_assoc (o p q : Option α) :
    better replaces (better replaces o p) q = better replaces o (better replaces p q) := by
  rcases o with - | a
  · rfl
  rcases p with - | b
  · rfl
  rcases q with - | c
  · exact better_none _
  simp only [better]
  by_cases hab : replaces a b
  · by_cases hbc : replaces b c
    · simp only [hab, hbc, htrans a b c hab hbc, if_true]
    · simp only [hab, hbc, if_true, if_false, Bool.false_eq_true]
  · by_cases hbc : replaces b c
    · simp only [hab, hbc, if_true, if_false, Bool.false_eq_true]
    · simp only [hab, hbc, hkeep a b c hab hbc, if_false, Bool.false_eq_true]

/-- A scan goes through a list part by part. -/
theorem pick_append : pick replaces (xs ++ ys) = better replaces (pick replaces xs)
    (pick replaces ys) := by
  induction ys using List.reverseRecOn with
  | nil => rw [List.append_nil]; exact (better_none _).symm
  | append_singleton ys y ih =>
    have hlast : ∀ zs : List α, pick replaces (zs ++ [y]) =
        better replaces (pick replaces zs) (some y) := fun zs ↦ by
      rw [pick, List.foldl_append]
      rfl
    rw [← List.append_assoc, hlast, hlast, ih, better_assoc htrans hkeep]

/-- Nothing in the list is better than what the scan ends with. -/
theorem replaces_of_pick {a : α} (ha : pick replaces xs = some a) (hy : y ∈ xs) :
    replaces y a ∨ ¬ replaces a y := by
  induction xs using List.reverseRecOn generalizing a with
  | nil => cases hy
  | append_singleton xs x ih =>
    rw [pick_append htrans hkeep] at ha
    rcases hxs : pick replaces xs with - | b
    · -- Nothing was kept before the last entry, so there was nothing.
      rw [hxs] at ha
      obtain rfl := Option.some.inj ha
      rcases List.mem_append.mp hy with h | h
      · exact absurd h (not_mem_of_pick_eq_none hxs y)
      · rw [List.mem_singleton.mp h]
        exact em _
    · rw [hxs] at ha
      change (if replaces b x then some x else some b) = some a at ha
      by_cases hbx : replaces b x
      · rw [if_pos hbx] at ha
        obtain rfl := Option.some.inj ha
        rcases List.mem_append.mp hy with h | h
        · refine .inl ?_
          rcases ih hxs h with hyb | hby
          · exact htrans y b x hyb hbx
          · by_contra hyx
            exact hkeep b y x hby hyx hbx
        · rw [List.mem_singleton.mp h]
          exact em _
      · rw [if_neg hbx] at ha
        obtain rfl := Option.some.inj ha
        rcases List.mem_append.mp hy with h | h
        · exact ih hxs h
        · rw [List.mem_singleton.mp h]
          exact .inr hbx

/-- What replaces the entry the scan ends with would replace any other. -/
theorem replaces_of_replaces_pick {a : α} (ha : pick replaces xs = some a) (hax : replaces a x) :
    ∀ y ∈ xs, replaces y x := by
  intro y hy
  rcases replaces_of_pick htrans hkeep ha hy with hya | hay
  · exact htrans y a x hya hax
  · by_contra hyx
    exact hkeep a y x hay hyx hax

theorem better_pick_some : better replaces (pick replaces xs) (some x) = pick replaces xs ∨
    better replaces (pick replaces xs) (some x) = some x ∧ ∀ y ∈ xs, replaces y x := by
  rcases hxs : pick replaces xs with - | a
  · exact .inr ⟨rfl, fun y hy ↦ absurd hy (not_mem_of_pick_eq_none hxs y)⟩
  · rw [better]
    by_cases hax : replaces a x
    · rw [if_pos hax]
      exact .inr ⟨rfl, replaces_of_replaces_pick htrans hkeep hxs hax⟩
    · exact .inl (if_neg hax)

theorem better_some_pick : better replaces (some x) (pick replaces ys) = pick replaces ys ∨
    better replaces (some x) (pick replaces ys) = some x ∧ ∀ y ∈ ys, ¬ replaces x y := by
  rcases hys : pick replaces ys with - | b
  · exact .inr ⟨rfl, fun y hy ↦ absurd hy (not_mem_of_pick_eq_none hys y)⟩
  · rw [better]
    by_cases hxb : replaces x b
    · exact .inl (if_pos hxb)
    · rw [if_neg hxb]
      refine .inr ⟨rfl, fun y hy hxy ↦ ?_⟩
      rcases replaces_of_pick htrans hkeep hys hy with hyb | hby
      · exact hxb (htrans x y b hxy hyb)
      · exact hkeep x b y hxb hby hxy

/-- **An entry put into a list** changes nothing, unless it replaces what comes before it and is
not replaced by what comes after; then the scan ends with it. -/
theorem pick_insert (xs : List α) (x : α) (ys : List α) :
    pick replaces (xs ++ x :: ys) = pick replaces (xs ++ ys) ∨
      pick replaces (xs ++ x :: ys) = some x ∧ (∀ y ∈ xs, replaces y x) ∧
        ∀ y ∈ ys, ¬ replaces x y := by
  have hmid : pick replaces (xs ++ x :: ys) =
      better replaces (better replaces (pick replaces xs) (some x)) (pick replaces ys) := by
    rw [← List.singleton_append, ← List.append_assoc, pick_append htrans hkeep,
      pick_append htrans hkeep]
    rfl
  rw [hmid, pick_append htrans hkeep]
  rcases better_some_pick htrans hkeep with h | ⟨h, hys⟩
  · exact .inl (by rw [better_assoc htrans hkeep, h])
  · rcases better_pick_some htrans hkeep with h' | ⟨h', hxs⟩
    · exact .inl (by rw [h'])
    · exact .inr ⟨by rw [h', h], hxs, hys⟩

/-- **Where the scan's entry stands**: it replaces every entry before it, and no entry after it
replaces it. -/
theorem pick_split {a : α} (ha : pick replaces xs = some a) : ∃ pre post, xs = pre ++ a :: post ∧
    (∀ y ∈ pre, replaces y a) ∧ ∀ y ∈ post, ¬ replaces a y := by
  induction xs using List.reverseRecOn generalizing a with
  | nil => cases ha
  | append_singleton xs x ih =>
    rw [pick_append htrans hkeep] at ha
    rcases hxs : pick replaces xs with - | b
    · rw [hxs] at ha
      obtain rfl := Option.some.inj ha
      exact ⟨xs, [], rfl, fun y hy ↦ absurd hy (not_mem_of_pick_eq_none hxs y), by simp⟩
    · rw [hxs] at ha
      change (if replaces b x then some x else some b) = some a at ha
      by_cases hbx : replaces b x
      · rw [if_pos hbx] at ha
        obtain rfl := Option.some.inj ha
        exact ⟨xs, [], rfl, replaces_of_replaces_pick htrans hkeep hxs hbx, by simp⟩
      · rw [if_neg hbx] at ha
        obtain rfl := Option.some.inj ha
        obtain ⟨pre, post, rfl, hpre, hpost⟩ := ih hxs
        refine ⟨pre, post ++ [x], by rw [List.append_assoc, List.cons_append], hpre, ?_⟩
        exact List.forall_mem_append.mpr ⟨hpost, List.forall_mem_singleton.mpr hbx⟩

/-- **The order does not matter** where of two different entries exactly one replaces the other. -/
theorem pick_perm (hperm : xs.Perm ys)
    (hone : ∀ x ∈ xs, ∀ y ∈ xs, x ≠ y → (replaces x y ↔ ¬ replaces y x)) :
    pick replaces xs = pick replaces ys := by
  refine hperm.foldl_eq' (fun x hx y hy z ↦ ?_) none
  rw [better_assoc htrans hkeep, better_assoc htrans hkeep]
  rcases eq_or_ne x y with rfl | hne
  · rfl
  · have hiff := hone x hx y hy hne
    congr 1
    rw [better, better]
    by_cases hyx : replaces y x
    · rw [if_pos hyx, if_neg (mt hiff.mp (not_not.mpr hyx))]
    · rw [if_neg hyx, if_pos (hiff.mpr hyx)]

end Preorder

end Pick
