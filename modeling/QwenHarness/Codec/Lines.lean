import Mathlib.Data.List.Basic

/-!
# Cutting a text into lines

A line is what stands before a separator. What stands after the last separator has begun and not
ended; it is kept, and the next part of the text is put behind it. So the lines do not depend on the
parts the text comes in.
-/

namespace Lines

variable {α : Type} [DecidableEq α] (sep : α)

/-- The lines that have ended, without their ends, and what has begun since. -/
def cut : List α → List (List α) × List α
  | [] => ([], [])
  | c :: cs =>
    if c = sep then ([] :: (cut cs).1, (cut cs).2)
    else
      match (cut cs).1 with
      | [] => ([], c :: (cut cs).2)
      | line :: lines => ((c :: line) :: lines, (cut cs).2)

theorem cut_cons (c : α) (cs : List α) : cut sep (c :: cs) =
    if c = sep then ([] :: (cut sep cs).1, (cut sep cs).2)
    else
      match (cut sep cs).1 with
      | [] => ([], c :: (cut sep cs).2)
      | line :: lines => ((c :: line) :: lines, (cut sep cs).2) := rfl

theorem cut_sep (cs : List α) : cut sep (sep :: cs) = ([] :: (cut sep cs).1, (cut sep cs).2) := by
  rw [cut_cons, if_pos rfl]

variable {sep}

theorem cut_cons_of_nil {c : α} {cs : List α} (hc : c ≠ sep) (h : (cut sep cs).1 = []) :
    cut sep (c :: cs) = ([], c :: (cut sep cs).2) := by
  rw [cut_cons, if_neg hc, h]

theorem cut_cons_of_cons {c : α} {cs line : List α} {lines : List (List α)} (hc : c ≠ sep)
    (h : (cut sep cs).1 = line :: lines) :
    cut sep (c :: cs) = ((c :: line) :: lines, (cut sep cs).2) := by
  rw [cut_cons, if_neg hc, h]

/-- **A text in two parts**: what the first part leaves is put before the second. -/
theorem cut_append (xs ys : List α) : cut sep (xs ++ ys) =
    ((cut sep xs).1 ++ (cut sep ((cut sep xs).2 ++ ys)).1,
      (cut sep ((cut sep xs).2 ++ ys)).2) := by
  induction xs with
  | nil => rfl
  | cons c cs ih =>
    rw [List.cons_append]
    by_cases hc : c = sep
    · subst hc
      rw [cut_sep, cut_sep, ih]
      rfl
    · rcases hcs : (cut sep cs).1 with - | ⟨line, lines⟩
      · -- no line has ended yet: the character belongs to what is kept
        rw [hcs, List.nil_append] at ih
        rw [cut_cons_of_nil hc hcs, List.nil_append, List.cons_append]
        rw [cut_cons, cut_cons, ih]
      · rw [hcs, List.cons_append] at ih
        rw [cut_cons_of_cons hc hcs, cut_cons_of_cons hc (congrArg Prod.fst ih), ih]
        rfl

/-- What is kept has no line in it. -/
theorem cut_rest (xs : List α) : (cut sep (cut sep xs).2).1 = [] := by
  have h : (cut sep (xs ++ [])).1 = (cut sep xs).1 ++ (cut sep ((cut sep xs).2 ++ [])).1 :=
    congrArg Prod.fst (cut_append xs [])
  rw [List.append_nil, List.append_nil] at h
  exact List.self_eq_append_right.mp h

variable (sep) in
/-- The lines that end in each of the parts. -/
def byPart : List α → List (List α) → List (List (List α))
  | _, [] => []
  | kept, part :: parts =>
    (cut sep (kept ++ part)).1 :: byPart (cut sep (kept ++ part)).2 parts

/-- **The lines of the parts** are the lines of the whole. -/
theorem byPart_flatten {kept : List α} (h : (cut sep kept).1 = []) (parts : List (List α)) :
    (byPart sep kept parts).flatten = (cut sep (kept ++ parts.flatten)).1 := by
  induction parts generalizing kept with
  | nil => rw [byPart, List.flatten_nil, List.flatten_nil, List.append_nil, h]
  | cons part parts ih =>
    rw [byPart, List.flatten_cons, List.flatten_cons, ih (cut_rest _), ← List.append_assoc,
      cut_append (kept ++ part)]

end Lines
