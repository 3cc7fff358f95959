import Mathlib.Data.List.Basic
import Mathlib.Data.List.Forall2

/-!
# Words that say where they end

A code writes a thing as a word. Two words can be told apart in front of other text if equal texts
come from the same thing and leave the same rest. What may follow matters: a word of digits ends
where something else begins.

Words that can be told apart stay so when they are listed with separators up to a closing letter.
-/

/-!
## Lists that are split at a separator

A list is split at a separator into parts that have none of it, and the parts joined are the list
again. So to know how a list is split it is enough to write it as parts that are joined
(`splitOn_eq_iff`).
-/

namespace Split

variable {α : Type} [DecidableEq α] {x : α} {xs part : List α} {parts : List (List α)}

/-- No part has the separator. -/
theorem not_mem_of_mem_splitOn (h : part ∈ xs.splitOn x) : x ∉ part := by
  induction xs generalizing part with
  | nil =>
    rw [List.splitOn_nil, List.mem_singleton] at h
    rw [h]
    exact List.not_mem_nil
  | cons a xs ih =>
    rw [List.splitOn_cons_eq_if_modifyHead] at h
    split at h
    · rcases List.mem_cons.mp h with rfl | h
      · exact List.not_mem_nil
      · exact ih h
    · next hne =>
      rcases hsplit : xs.splitOn x with - | ⟨first, rest⟩
      · exact absurd hsplit (List.splitOn_ne_nil x xs)
      · rw [hsplit, List.modifyHead_cons] at h
        rcases List.mem_cons.mp h with rfl | h
        · rw [List.mem_cons, not_or]
          refine ⟨fun heq ↦ hne (beq_iff_eq.mpr heq.symm), ih ?_⟩
          rw [hsplit]
          exact List.mem_cons_self
        · refine ih ?_
          rw [hsplit]
          exact List.mem_cons_of_mem _ h

/-- **How a list is split**, by how it is joined. -/
theorem splitOn_eq_iff : xs.splitOn x = parts ↔
    parts ≠ [] ∧ (∀ part ∈ parts, x ∉ part) ∧ [x].intercalate parts = xs := by
  constructor
  · rintro rfl
    exact ⟨List.splitOn_ne_nil x xs, fun _ hpart ↦ not_mem_of_mem_splitOn hpart,
      List.intercalate_splitOn x⟩
  · rintro ⟨hne, hparts, rfl⟩
    exact List.splitOn_intercalate x hparts hne

theorem splitOn_eq_singleton_iff : xs.splitOn x = [part] ↔ x ∉ part ∧ part = xs := by
  rw [splitOn_eq_iff, List.forall_mem_singleton, List.intercalate_singleton]
  exact and_iff_right (List.cons_ne_nil _ _)

theorem splitOn_eq_pair_iff {part' : List α} : xs.splitOn x = [part, part'] ↔
    x ∉ part ∧ x ∉ part' ∧ part ++ x :: part' = xs := by
  rw [splitOn_eq_iff, List.forall_mem_cons, List.forall_mem_singleton, List.intercalate_cons_cons,
    List.intercalate_singleton, List.append_assoc, List.singleton_append, and_assoc]
  exact and_iff_right (List.cons_ne_nil _ _)

end Split

namespace Codec

variable {α β γ : Type}

/-- Words of the letters `p` end where another letter or nothing follows. -/
theorem append_inj_of_forall {p : β → Prop} {v w r s : List β} (hv : ∀ b ∈ v, p b)
    (hw : ∀ b ∈ w, p b) (hr : ∀ b ∈ r.head?, ¬p b) (hs : ∀ b ∈ s.head?, ¬p b)
    (h : v ++ r = w ++ s) : v = w ∧ r = s := by
  induction v generalizing w with
  | nil =>
    rcases w with - | ⟨b, w⟩
    · exact ⟨rfl, h⟩
    · rw [List.nil_append] at h
      rw [h] at hr
      exact absurd (hw b List.mem_cons_self) (hr b rfl)
  | cons a v ih =>
    rw [List.forall_mem_cons] at hv
    rcases w with - | ⟨b, w⟩
    · rw [List.nil_append] at h
      rw [← h] at hs
      exact absurd hv.1 (hs a rfl)
    · obtain ⟨rfl, h'⟩ := List.cons.inj h
      obtain ⟨rfl, hrs⟩ := ih hv.2 (List.forall_mem_cons.mp hw).2 h'
      exact ⟨rfl, hrs⟩

/-! ## Lists with separators -/

/-- After the first word each word follows a separator. -/
theorem intercalate_cons (sep : β) (w : List β) (ws : List (List β)) :
    [sep].intercalate (w :: ws) = w ++ ws.flatMap (sep :: ·) := by
  induction ws generalizing w with
  | nil => rw [List.intercalate_singleton, List.flatMap_nil, List.append_nil]
  | cons v ws ih => rw [List.intercalate_cons_cons, ih, List.flatMap_cons, List.append_assoc]; rfl

theorem exists_of_forall₂ {R : α → γ → Prop} {as : List α} {cs : List γ}
    (h : List.Forall₂ R as cs) {a : α} (ha : a ∈ as) : ∃ c ∈ cs, R a c := by
  induction h with
  | nil => exact absurd ha List.not_mem_nil
  | cons hac _ ih =>
    rcases List.mem_cons.mp ha with rfl | ha
    · exact ⟨_, List.mem_cons_self, hac⟩
    · obtain ⟨c, hc, hR⟩ := ih ha
      exact ⟨c, List.mem_cons_of_mem _ hc, hR⟩

/-- The words of two things can be told apart in front of every text that starts with `sep` or
`close`. -/
def Apart (sep close : β) (f : α → List β) (R : α → α → Prop) (a b : α) : Prop :=
  ∀ r s : List β, (∃ c ∈ [sep, close], r.head? = some c) → (∃ c ∈ [sep, close], s.head? = some c) →
    f a ++ r = f b ++ s → R a b ∧ r = s

section Listed

variable {sep close : β} {f : α → List β} {R : α → α → Prop} {as bs : List α} {r s : List β}

/-- What follows a word in a list starts with the separator or closes the list. -/
theorem head?_rest (sep close : β) (f : α → List β) (as : List α) (r : List β) :
    ∃ c ∈ [sep, close], ((as.map f).flatMap (sep :: ·) ++ close :: r).head? = some c := by
  rcases as with - | ⟨a, as⟩
  · exact ⟨close, by simp, rfl⟩
  · exact ⟨sep, by simp, rfl⟩

theorem flatMap_sep_inj (hne : sep ≠ close) (hf : ∀ a ∈ as, ∀ b ∈ bs, Apart sep close f R a b)
    (h : (as.map f).flatMap (sep :: ·) ++ close :: r =
      (bs.map f).flatMap (sep :: ·) ++ close :: s) : List.Forall₂ R as bs ∧ r = s := by
  induction as generalizing bs with
  | nil =>
    rcases bs with - | ⟨b, bs⟩
    · exact ⟨.nil, (List.cons.inj h).2⟩
    · exact absurd (List.cons.inj h).1.symm hne
  | cons a as ih =>
    rcases bs with - | ⟨b, bs⟩
    · exact absurd (List.cons.inj h).1 hne
    · rw [List.map_cons, List.map_cons, List.flatMap_cons, List.flatMap_cons, List.append_assoc,
        List.append_assoc] at h
      obtain ⟨hab, h⟩ := hf a List.mem_cons_self b List.mem_cons_self _ _
        (head?_rest sep close f as r) (head?_rest sep close f bs s) (List.cons.inj h).2
      obtain ⟨hrest, hrs⟩ := ih (fun x hx y hy ↦
        hf x (List.mem_cons_of_mem _ hx) y (List.mem_cons_of_mem _ hy)) h
      exact ⟨.cons hab hrest, hrs⟩

/-- **Lists can be told apart** if their members can, and no member starts like the end. -/
theorem intercalate_inj (hne : sep ≠ close) (hf : ∀ a ∈ as, ∀ b ∈ bs, Apart sep close f R a b)
    (hclose : ∀ a, ∃ c w, f a = c :: w ∧ c ≠ close)
    (h : [sep].intercalate (as.map f) ++ close :: r = [sep].intercalate (bs.map f) ++ close :: s) :
    List.Forall₂ R as bs ∧ r = s := by
  rcases as with - | ⟨a, as⟩ <;> rcases bs with - | ⟨b, bs⟩
  · exact ⟨.nil, (List.cons.inj h).2⟩
  · obtain ⟨c, w, hw, hc⟩ := hclose b
    rw [List.map_cons, intercalate_cons, hw] at h
    exact absurd (List.cons.inj h).1.symm hc
  · obtain ⟨c, w, hw, hc⟩ := hclose a
    rw [List.map_cons, intercalate_cons, hw] at h
    exact absurd (List.cons.inj h).1 hc
  · rw [List.map_cons, List.map_cons, intercalate_cons, intercalate_cons, List.append_assoc,
      List.append_assoc] at h
    obtain ⟨hab, h⟩ := hf a List.mem_cons_self b List.mem_cons_self _ _
      (head?_rest sep close f as r) (head?_rest sep close f bs s) h
    obtain ⟨hrest, hrs⟩ := flatMap_sep_inj hne (fun x hx y hy ↦
      hf x (List.mem_cons_of_mem _ hx) y (List.mem_cons_of_mem _ hy)) h
    exact ⟨.cons hab hrest, hrs⟩

end Listed

end Codec
