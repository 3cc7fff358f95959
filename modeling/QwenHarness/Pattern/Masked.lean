import Mathlib.Data.List.Infix
import QwenHarness.Pattern.Regex

/-!
# Texts with parts masked

A program that hides parts of a text writes a mark in their place. What is then found in the text
either stood there before or overlaps a mark. So a word that shares no end with the mark is not
made by masking, however often and for whatever reason parts are masked, and it is gone once its own
occurrences were.
-/

namespace Pattern

variable {α β : Type} {mark word s t : List α}

/-! ## Masking -/

/-- The second text is the first with some parts replaced by the mark. -/
inductive Masked (mark : List α) : List α → List α → Prop
  | nil : Masked mark [] []
  | keep (a : α) {s t : List α} (h : Masked mark s t) : Masked mark (a :: s) (a :: t)
  | hide (part : List α) {s t : List α} (h : Masked mark s t) :
    Masked mark (part ++ s) (mark ++ t)

namespace Masked

theorem refl (s : List α) : Masked mark s s := by
  induction s with
  | nil => exact .nil
  | cons a s ih => exact .keep a ih

theorem append {s' t' : List α} (h : Masked mark s t) (h' : Masked mark s' t') :
    Masked mark (s ++ s') (t ++ t') := by
  induction h with
  | nil => exact h'
  | keep a _ ih => exact .keep a ih
  | hide part _ ih =>
    rw [List.append_assoc, List.append_assoc]
    exact .hide part ih

/-- One part between two that stay. -/
theorem between (lead part tail : List α) :
    Masked mark (lead ++ part ++ tail) (lead ++ mark ++ tail) := by
  have hpart : Masked mark part mark := by
    have hhide : Masked mark (part ++ []) (mark ++ []) := .hide part .nil
    rwa [List.append_nil, List.append_nil] at hhide
  exact ((refl lead).append hpart).append (refl tail)

/-- A text that was changed shows the mark. -/
theorem eq_or_marked (h : Masked mark s t) : t = s ∨ mark <:+: t := by
  induction h with
  | nil => exact .inl rfl
  | keep a _ ih =>
    exact ih.imp (congrArg (a :: ·)) fun hmark ↦ hmark.trans (List.suffix_cons a _).isInfix
  | hide part _ _ => exact .inr (List.prefix_append _ _).isInfix

end Masked

/-! ## Words apart from the mark -/

/-- A word and the mark share no end, and neither is a part of the other. -/
structure Apart (word mark : List α) : Prop where
  ends : ∀ e ≠ [], e <:+ word → ¬ e <+: mark
  starts : ∀ e ≠ [], e <+: word → ¬ e <:+ mark
  around : ¬ mark <:+: word
  within : ¬ word <:+: mark

instance [DecidableEq α] : Decidable (Apart word mark) :=
  decidable_of_iff ((∀ e ∈ word.tails, e ≠ [] → ¬ e <+: mark) ∧
      (∀ e ∈ word.inits, e ≠ [] → ¬ e <:+ mark) ∧ ¬ mark <:+: word ∧ ¬ word <:+: mark)
    ⟨fun ⟨hends, hstarts, haround, hwithin⟩ ↦
      ⟨fun e hne he ↦ hends e ((List.mem_tails e word).mpr he) hne,
        fun e hne he ↦ hstarts e ((List.mem_inits e word).mpr he) hne, haround, hwithin⟩,
      fun h ↦ ⟨fun e he hne ↦ h.ends e hne ((List.mem_tails e word).mp he),
        fun e he hne ↦ h.starts e hne ((List.mem_inits e word).mp he), h.around, h.within⟩⟩

theorem Apart.ne_nil (h : Apart word mark) : word ≠ [] := by
  rintro rfl
  exact h.within List.nil_infix

/-- An end of the word at the front of the masked text stood at the front before. -/
theorem Apart.prefix_of_masked (h : Apart word mark) (hst : Masked mark s t) {e : List α}
    (he : e <:+ word) (hpre : e <+: t) : e <+: s := by
  induction hst generalizing e with
  | nil => exact hpre
  | keep a _ ih =>
    rcases e with - | ⟨b, e⟩
    · exact List.nil_prefix
    · obtain ⟨rfl, htail⟩ := List.cons_prefix_cons.mp hpre
      exact List.cons_prefix_cons.mpr ⟨rfl, ih ((List.suffix_cons b e).trans he) htail⟩
  | hide part _ _ =>
    rcases eq_or_ne e [] with rfl | hne
    · exact List.nil_prefix
    · rcases List.prefix_or_prefix_of_prefix hpre (List.prefix_append _ _) with hshort | hlong
      · exact absurd hshort (h.ends e hne he)
      · exact absurd (hlong.isInfix.trans he.isInfix) h.around

/-- No word begins within the mark. -/
theorem Apart.infix_of_infix_append (h : Apart word mark) {e : List α} (he : e <:+ mark)
    (hin : word <:+: e ++ t) : word <:+: t := by
  induction e with
  | nil => exact hin
  | cons a e ih =>
    rcases List.infix_cons_iff.mp hin with hpre | hin
    · have hfront : a :: e <+: a :: e ++ t := List.prefix_append _ t
      rcases List.prefix_or_prefix_of_prefix hpre hfront with hshort | hlong
      · exact absurd (hshort.isInfix.trans he.isInfix) h.within
      · exact absurd he (h.starts (a :: e) (List.cons_ne_nil a e) hlong)
    · exact ih ((List.suffix_cons a e).trans he) hin

/-- **Masking makes no word that is apart from the mark.** -/
theorem Apart.infix_of_masked (h : Apart word mark) (hst : Masked mark s t) (hin : word <:+: t) :
    word <:+: s := by
  induction hst with
  | nil => exact hin
  | keep a hst ih =>
    rcases List.infix_cons_iff.mp hin with hpre | hin
    · exact (h.prefix_of_masked (.keep a hst) (List.suffix_refl _) hpre).isInfix
    · exact (ih hin).trans (List.suffix_cons a _).isInfix
  | hide part _ ih =>
    have hrest := ih (h.infix_of_infix_append (List.suffix_refl _) hin)
    exact hrest.trans (List.suffix_append _ _).isInfix

/-! ## Masking what a scan finds -/

/-- What is put in place of something found masks what was there. -/
def Hides (mark : List α) (find : Cursor α → Option (ℕ × β)) (put : β → List α) : Prop :=
  ∀ c n b, find c = some (n, b) → Masked mark (c.rest.take n) (put b)

theorem Hides.masked_scan {find : Cursor α → Option (ℕ × β)} {put : β → List α}
    (h : Hides mark find put) {n : ℕ} {before : Option α} {text : List α} :
    Masked mark (text.drop n) (render put (scan find n before text)) := by
  induction text generalizing n before with
  | nil =>
    rw [List.drop_nil]
    cases n with
    | zero =>
      rw [scan]
      cases hfind : find ⟨before, []⟩ with
      | none => exact .nil
      | some found =>
        have hput := h _ _ _ hfind
        rw [List.take_nil] at hput
        change Masked mark [] (render put [.inr found.2])
        rwa [render_inr_cons, render_nil, List.append_nil]
    | succ n => exact .nil
  | cons a rest ih =>
    cases n with
    | succ n => exact ih
    | zero =>
      have hrest : Masked mark rest (render put (scan find 0 (some a) rest)) := ih (n := 0)
      rw [scan, List.drop_zero]
      split
      · rw [render_inl_cons]
        exact .keep a hrest
      · rename_i b hfind
        rw [render_inr_cons, render_inl_cons]
        exact (h _ _ _ hfind).append (.keep a hrest)
      · rename_i n b hfind
        have hput : Masked mark ((a :: rest).take (n + 1) ++ rest.drop n)
            (put b ++ render put (scan find n (some a) rest)) := (h _ _ _ hfind).append ih
        rw [render_inr_cons]
        rwa [List.take_succ_cons, List.cons_append, List.take_append_drop] at hput

/-! ## Masking every occurrence of a word -/

section Occurrences

variable [DecidableEq α]

/-- The word stands here. -/
def occurrence (word : List α) (c : Cursor α) : Option (ℕ × Unit) :=
  if word <+: c.rest then some (word.length, ()) else none

/-- `text.split(word).join(mark)`, for a word that is not empty. -/
def maskAll (word mark text : List α) : List α :=
  render (fun _ ↦ mark) (scan (occurrence word) 0 none text)

theorem hides_occurrence : Hides mark (occurrence word) fun _ ↦ mark := by
  intro c n b h
  have hmasked : Masked mark ([] ++ c.rest.take n ++ []) ([] ++ mark ++ []) :=
    Masked.between [] (c.rest.take n) []
  rwa [List.nil_append, List.append_nil, List.nil_append, List.append_nil] at hmasked

theorem masked_maskAll (text : List α) : Masked mark text (maskAll word mark text) :=
  hides_occurrence.masked_scan (n := 0)

/-- **Every occurrence is gone**, and masking made no new one. -/
theorem Apart.not_infix_maskAll (h : Apart word mark) (text : List α) :
    ¬ word <:+: maskAll word mark text := by
  suffices hscan : ∀ n before, ¬ word <:+:
      render (fun _ ↦ mark) (scan (occurrence word) n before text) from hscan 0 none
  have hnil : ¬ word <:+: [] := fun hin ↦ h.ne_nil (List.infix_nil.mp hin)
  have hlen : word.length ≠ 0 := fun hlen ↦ h.ne_nil (List.length_eq_zero_iff.mp hlen)
  induction text with
  | nil =>
    intro n before
    cases n with
    | zero =>
      rw [scan, occurrence, if_neg fun hpre ↦ hnil (List.IsPrefix.isInfix hpre)]
      exact hnil
    | succ n => exact hnil
  | cons a rest ih =>
    intro n before
    cases n with
    | succ n => exact ih n (some a)
    | zero =>
      rw [scan]
      by_cases hpre : word <+: a :: rest
      · obtain ⟨n, hn⟩ := Nat.exists_eq_succ_of_ne_zero hlen
        rw [occurrence, if_pos hpre, hn]
        exact fun hin ↦ ih n (some a) (h.infix_of_infix_append (List.suffix_refl _) hin)
      · rw [occurrence, if_neg hpre]
        intro hin
        rcases List.infix_cons_iff.mp hin with hfront | hin
        · refine hpre (h.prefix_of_masked (.keep a ?_) (List.suffix_refl _) hfront)
          exact hides_occurrence.masked_scan (n := 0)
        · exact ih 0 (some a) hin

end Occurrences

end Pattern
