import Mathlib.Data.List.Basic

/-!
# The pieces between separators

`splitOn` cuts a list at every separator and `intercalate` puts the pieces together again. What is
said here is about parts of the list: what stands before a piece's end, how many pieces there are,
and that a part without a separator lies within one piece.
-/

namespace Pieces

open List

variable {α : Type} [DecidableEq α] {sep : α} {xs u v r w : List α} {ls vs : List (List α)}

theorem not_mem_of_mem_splitOn (h : w ∈ xs.splitOn sep) : sep ∉ w := by
  induction xs generalizing w with
  | nil =>
    rw [splitOn_nil, mem_singleton] at h
    rw [h]
    exact not_mem_nil
  | cons x xs ih =>
    rw [splitOn_cons_eq_if_modifyHead] at h
    split at h
    · rcases mem_cons.mp h with rfl | h
      · exact not_mem_nil
      · exact ih h
    · next hx =>
      obtain ⟨p, ps, hps⟩ := exists_cons_of_ne_nil (splitOn_ne_nil sep xs)
      rw [hps, modifyHead_cons] at h
      rw [hps] at ih
      rcases mem_cons.mp h with rfl | h
      · rw [mem_cons, not_or]
        exact ⟨fun heq ↦ hx (beq_iff_eq.mpr heq.symm), ih mem_cons_self⟩
      · exact ih (mem_cons_of_mem _ h)

theorem infix_of_mem_splitOn (h : w ∈ xs.splitOn sep) : w <:+: xs := by
  have hin : ∀ ls : List (List α), w ∈ ls → w <:+: [sep].intercalate ls := by
    intro ls hw
    induction ls with
    | nil => exact absurd hw not_mem_nil
    | cons l ls ih =>
      rcases eq_or_ne ls [] with rfl | hne
      · refine ⟨[], [], ?_⟩
        rw [mem_singleton.mp hw, intercalate_singleton, nil_append, append_nil]
      · rw [intercalate_cons_of_ne_nil hne]
        rcases mem_cons.mp hw with rfl | hw
        · exact ⟨[], [sep] ++ [sep].intercalate ls, by simp⟩
        · exact (ih hw).trans (suffix_append _ _).isInfix
  have hjoin : [sep].intercalate (xs.splitOn sep) = xs := intercalate_splitOn sep
  exact hjoin ▸ hin _ h

theorem length_splitOn (xs : List α) : (xs.splitOn sep).length = xs.count sep + 1 := by
  induction xs with
  | nil => rfl
  | cons x xs ih =>
    rw [splitOn_cons_eq_if_modifyHead, count_cons]
    split
    · rw [length_cons, ih]
    · rw [length_modifyHead, ih, Nat.add_zero]

theorem splitOn_append_of_not_mem (h : sep ∉ u) :
    (u ++ r).splitOn sep = (r.splitOn sep).modifyHead (u ++ ·) := by
  induction u with
  | nil =>
    obtain ⟨p, ps, hps⟩ := exists_cons_of_ne_nil (splitOn_ne_nil sep r)
    rw [nil_append, hps]
    rfl
  | cons a u ih =>
    rw [mem_cons, not_or] at h
    rw [cons_append, splitOn_cons_eq_if_modifyHead, if_neg (by simpa using Ne.symm h.1), ih h.2,
      modifyHead_modifyHead]
    rfl

/-- What stands in front of the first piece's end. -/
theorem splitOn_eq_append_cons_iff : xs.splitOn sep = (u ++ v) :: vs ↔
    ∃ r, xs = u ++ r ∧ sep ∉ u ∧ r.splitOn sep = v :: vs := by
  constructor
  · intro h
    have hfree : ∀ l ∈ (u ++ v) :: vs, sep ∉ l := by
      rw [← h]
      exact fun l hl ↦ not_mem_of_mem_splitOn hl
    rw [forall_mem_cons, mem_append, not_or] at hfree
    have hjoin : [sep].intercalate (xs.splitOn sep) = xs := intercalate_splitOn sep
    refine ⟨[sep].intercalate (v :: vs), ?_, hfree.1.1, ?_⟩
    · rw [← hjoin, h]
      cases vs <;> simp
    · exact splitOn_intercalate sep (forall_mem_cons.mpr ⟨hfree.1.2, hfree.2⟩) (cons_ne_nil _ _)
  · rintro ⟨r, rfl, hu, hr⟩
    rw [splitOn_append_of_not_mem hu, hr]
    rfl

omit [DecidableEq α] in
theorem eq_nil_of_prefix_cons (hw : sep ∉ w) (h : w <+: sep :: r) : w = [] := by
  rcases w with - | ⟨a, w⟩
  · rfl
  · obtain ⟨rfl, -⟩ := cons_prefix_cons.mp h
    exact absurd mem_cons_self hw

omit [DecidableEq α] in
/-- A part without a separator lies within one piece. -/
theorem infix_of_infix_intercalate (hw : sep ∉ w) (h : w <:+: [sep].intercalate ls) :
    w = [] ∨ ∃ l ∈ ls, w <:+: l := by
  induction ls with
  | nil => exact .inl (infix_nil.mp h)
  | cons l ls ih =>
    rcases eq_or_ne ls [] with rfl | hne
    · exact .inr ⟨l, mem_cons_self, by simpa using h⟩
    · rw [intercalate_cons_of_ne_nil hne, append_assoc, singleton_append] at h
      rcases infix_append_iff.mp h with hl | hrest | ⟨a, b, rfl, hal, hb⟩
      · exact .inr ⟨l, mem_cons_self, hl⟩
      · rcases infix_cons_iff.mp hrest with hpre | hin
        · exact .inl (eq_nil_of_prefix_cons hw hpre)
        · exact (ih hin).imp_right fun ⟨m, hm, hin⟩ ↦ ⟨m, mem_cons_of_mem _ hm, hin⟩
      · rw [mem_append, not_or] at hw
        rw [eq_nil_of_prefix_cons hw.2 hb, append_nil]
        exact .inr ⟨l, mem_cons_self, hal.isInfix⟩

omit [DecidableEq α] in
theorem mem_intercalate {x : α} (h : x ∈ [sep].intercalate ls) : x = sep ∨ ∃ l ∈ ls, x ∈ l := by
  induction ls with
  | nil => exact absurd h not_mem_nil
  | cons l ls ih =>
    rcases eq_or_ne ls [] with rfl | hne
    · rw [intercalate_singleton] at h
      exact .inr ⟨l, mem_cons_self, h⟩
    · rw [intercalate_cons_of_ne_nil hne, mem_append, mem_append, mem_singleton] at h
      rcases h with (h | h) | h
      · exact .inr ⟨l, mem_cons_self, h⟩
      · exact .inl h
      · exact (ih h).imp_right fun ⟨m, hm, hx⟩ ↦ ⟨m, mem_cons_of_mem _ hm, hx⟩

omit [DecidableEq α] in
theorem flatten_sublist_intercalate (ls : List (List α)) :
    ls.flatten.Sublist ([sep].intercalate ls) := by
  induction ls with
  | nil => exact Sublist.refl _
  | cons l ls ih =>
    rcases eq_or_ne ls [] with rfl | hne
    · simp
    · rw [intercalate_cons_of_ne_nil hne, flatten_cons, append_assoc]
      exact (Sublist.refl l).append (ih.trans (sublist_append_right _ _))

end Pieces
