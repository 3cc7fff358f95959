import Mathlib.Data.List.Infix
import Mathlib.Order.Nat

/-!
# Hunks

A hunk is a run of marked lines and the place where it starts. Applied to a list of lines, it walks
along them: a line of the context must be there and stays, a line that is removed must be there and
goes, a line that is added comes. What is before the hunk and after it stays.
-/

namespace Diff

inductive Mark where
  | context
  | removed
  | added
deriving DecidableEq, Repr

variable {α : Type}

structure Hunk (α : Type) where
  /-- How many lines come before. -/
  skip : ℕ
  body : List (Mark × α)
deriving DecidableEq, Repr

/-- Lines under one mark. -/
def marked (mark : Mark) (ls : List α) : List (Mark × α) := ls.map fun l ↦ (mark, l)

namespace Hunk

variable (h : Hunk α)

/-- The lines of the old text, and those of the new. -/
def oldCount : ℕ := h.body.countP fun l ↦ decide (l.1 ≠ .added)

def newCount : ℕ := h.body.countP fun l ↦ decide (l.1 ≠ .removed)

variable [DecidableEq α]

/-- Follow the marks along the lines from the start of the hunk on. -/
def walk : List (Mark × α) → List α → Option (List α)
  | [], ls => some ls
  | (.context, x) :: body, l :: ls => if l = x then (walk body ls).map (x :: ·) else none
  | (.removed, x) :: body, l :: ls => if l = x then walk body ls else none
  | (.added, x) :: body, ls => (walk body ls).map (x :: ·)
  | _, [] => none

/-- The lines after the hunk. It does not apply where a line is not what it says. -/
def apply (ls : List α) : Option (List α) :=
  if h.skip ≤ ls.length then (walk h.body (ls.drop h.skip)).map (ls.take h.skip ++ ·) else none

variable {body : List (Mark × α)} {ls xs : List α}

theorem walk_context :
    walk (marked .context xs ++ body) (xs ++ ls) = (walk body ls).map (xs ++ ·) := by
  induction xs with
  | nil => exact Option.map_id'.symm
  | cons x xs ih =>
    rw [marked, List.map_cons, List.cons_append, List.cons_append, walk, if_pos rfl]
    rw [← marked, ih, Option.map_map]
    rfl

theorem walk_removed : walk (marked .removed xs ++ body) (xs ++ ls) = walk body ls := by
  induction xs with
  | nil => rfl
  | cons x xs ih =>
    rw [marked, List.map_cons, List.cons_append, List.cons_append, walk, if_pos rfl]
    exact ih

theorem walk_added : walk (marked .added xs ++ body) ls = (walk body ls).map (xs ++ ·) := by
  induction xs with
  | nil => exact Option.map_id'.symm
  | cons x xs ih =>
    have hwalk : walk (marked .added (x :: xs) ++ body) ls =
        (walk (marked .added xs ++ body) ls).map (x :: ·) := by
      cases ls <;> rfl
    rw [hwalk, ih, Option.map_map]
    rfl

/-- **A change with context around it.** -/
theorem walk_change (before removed added behind rest : List α) :
    walk (marked .context before ++ (marked .removed removed ++ (marked .added added ++
        marked .context behind))) (before ++ (removed ++ (behind ++ rest))) =
      some (before ++ (added ++ (behind ++ rest))) := by
  have hbehind : walk (marked .context behind) (behind ++ rest) = some (behind ++ rest) := by
    have hwalk := @walk_context α _ [] rest behind
    rwa [List.append_nil] at hwalk
  rw [walk_context, walk_removed, walk_added, hbehind]
  rfl

end Hunk

/-! ## Counting marks -/

section Count

theorem countP_marked {p : Mark × α → Bool} {mark : Mark} {b : Bool} (hp : ∀ l, p (mark, l) = b)
    (ls : List α) : (marked mark ls).countP p = if b then ls.length else 0 := by
  rw [marked, List.countP_map]
  cases b with
  | true => exact List.countP_eq_length.mpr fun l _ ↦ hp l
  | false =>
    refine List.countP_eq_zero.mpr fun l _ ↦ ?_
    rw [Function.comp, hp]
    exact Bool.false_ne_true

end Count

end Diff
