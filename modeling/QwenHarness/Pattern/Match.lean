import Mathlib.Data.List.Basic

/-!
# Patterns that match a whole word

A pattern is a list of parts, and a word matches it if it falls into one piece for each part. The
parts are the few forms that globs compile to: a letter, a letter of a class, any number of letters
of a class, any number of segments that end with a separator, and an optional tail that starts with
one.

`accepts` decides by trying every split. `accepts_iff` says that it finds one whenever there is one.
-/

namespace Pattern

variable {α : Type}

/-- A part of a pattern over the letters `α`. A class of letters is a test. -/
inductive Part (α : Type) where
  | letter (a : α)
  | one (cls : α → Bool)
  | many (cls : α → Bool)
  /-- Any number of segments, each ended by the separator. -/
  | segments (sep : α)
  /-- Nothing, or the separator and any number of letters of the class. -/
  | tail (sep : α) (cls : α → Bool)

namespace Part

/-- The words a part stands for. -/
def Denotes : Part α → List α → Prop
  | letter a, w => w = [a]
  | one cls, w => ∃ a, cls a = true ∧ w = [a]
  | many cls, w => ∀ a ∈ w, cls a = true
  | segments sep, w => w = [] ∨ ∃ v, w = v ++ [sep]
  | tail sep cls, w => w = [] ∨ ∃ v, w = sep :: v ∧ ∀ a ∈ v, cls a = true

end Part

/-- Some rest of the word after letters of the class. -/
def afterMany (cls : α → Bool) (k : List α → Bool) : List α → Bool
  | [] => k []
  | a :: s => k (a :: s) || (cls a && afterMany cls k s)

theorem afterMany_iff {cls : α → Bool} {k : List α → Bool} {s : List α} :
    afterMany cls k s = true ↔
      ∃ w r, s = w ++ r ∧ (∀ a ∈ w, cls a = true) ∧ k r = true := by
  induction s with
  | nil =>
    rw [afterMany]
    constructor
    · exact fun h ↦ ⟨[], [], rfl, by simp, h⟩
    · rintro ⟨w, r, hs, -, hk⟩
      obtain ⟨rfl, rfl⟩ := List.append_eq_nil_iff.mp hs.symm
      exact hk
  | cons a s ih =>
    rw [afterMany, Bool.or_eq_true, Bool.and_eq_true, ih]
    constructor
    · rintro (h | ⟨ha, w, r, rfl, hw, hk⟩)
      · exact ⟨[], a :: s, rfl, by simp, h⟩
      · exact ⟨a :: w, r, rfl, by simpa using ⟨ha, hw⟩, hk⟩
    · rintro ⟨w, r, hs, hw, hk⟩
      rcases w with - | ⟨b, w⟩
      · exact .inl (by simpa [hs] using hk)
      · obtain ⟨rfl, rfl⟩ := List.cons.inj hs
        rw [List.forall_mem_cons] at hw
        exact .inr ⟨hw.1, w, r, rfl, hw.2, hk⟩

/-- Some rest of the word right after a separator. -/
def afterSeparator [DecidableEq α] (sep : α) (k : List α → Bool) : List α → Bool
  | [] => false
  | a :: s => (decide (a = sep) && k s) || afterSeparator sep k s

section Matching

variable [DecidableEq α]

/-- Take a part off the front of a word in every way and go on with the rest. -/
def Part.take (k : List α → Bool) : Part α → List α → Bool
  | letter _, [] => false
  | letter a, b :: s => decide (b = a) && k s
  | one _, [] => false
  | one cls, b :: s => cls b && k s
  | many cls, s => afterMany cls k s
  | segments sep, s => k s || afterSeparator sep k s
  | tail _ _, [] => k []
  | tail sep cls, b :: s => k (b :: s) || (decide (b = sep) && afterMany cls k s)

/-- Whether the whole word matches. -/
def accepts : List (Part α) → List α → Bool
  | [] => List.isEmpty
  | p :: ps => p.take (accepts ps)

/-! ## Every split is tried -/

theorem afterSeparator_iff {sep : α} {k : List α → Bool} {s : List α} :
    afterSeparator sep k s = true ↔ ∃ v r, s = v ++ sep :: r ∧ k r = true := by
  induction s with
  | nil => simp [afterSeparator]
  | cons a s ih =>
    rw [afterSeparator, Bool.or_eq_true, Bool.and_eq_true, decide_eq_true_iff, ih]
    constructor
    · rintro (⟨rfl, h⟩ | ⟨v, r, rfl, hk⟩)
      · exact ⟨[], s, rfl, h⟩
      · exact ⟨a :: v, r, rfl, hk⟩
    · rintro ⟨v, r, hs, hk⟩
      rcases v with - | ⟨b, v⟩
      · obtain ⟨rfl, rfl⟩ := List.cons.inj hs
        exact .inl ⟨rfl, hk⟩
      · obtain ⟨rfl, rfl⟩ := List.cons.inj hs
        exact .inr ⟨v, r, rfl, hk⟩

/-- A part is taken off the front exactly as one of the words it stands for. -/
theorem Part.take_iff {p : Part α} {k : List α → Bool} {s : List α} :
    p.take k s = true ↔ ∃ w r, s = w ++ r ∧ p.Denotes w ∧ k r = true := by
  cases p with
  | letter a =>
    rcases s with - | ⟨b, s⟩
    · simp [Part.take, Part.Denotes]
    · rw [Part.take, Bool.and_eq_true, decide_eq_true_iff]
      constructor
      · rintro ⟨rfl, h⟩
        exact ⟨[b], s, rfl, rfl, h⟩
      · rintro ⟨w, r, hs, rfl, hk⟩
        obtain ⟨rfl, rfl⟩ := List.cons.inj hs
        exact ⟨rfl, hk⟩
  | one cls =>
    rcases s with - | ⟨b, s⟩
    · simp [Part.take, Part.Denotes]
    · rw [Part.take, Bool.and_eq_true]
      constructor
      · rintro ⟨hb, h⟩
        exact ⟨[b], s, rfl, ⟨b, hb, rfl⟩, h⟩
      · rintro ⟨w, r, hs, ⟨a, ha, rfl⟩, hk⟩
        obtain ⟨rfl, rfl⟩ := List.cons.inj hs
        exact ⟨ha, hk⟩
  | many cls => exact afterMany_iff
  | segments sep =>
    rw [Part.take, Bool.or_eq_true, afterSeparator_iff]
    constructor
    · rintro (h | ⟨v, r, rfl, hk⟩)
      · exact ⟨[], s, rfl, .inl rfl, h⟩
      · exact ⟨v ++ [sep], r, by simp, .inr ⟨v, rfl⟩, hk⟩
    · rintro ⟨w, r, rfl, rfl | ⟨v, rfl⟩, hk⟩
      · exact .inl hk
      · exact .inr ⟨v, r, by simp, hk⟩
  | tail sep cls =>
    rcases s with - | ⟨b, s⟩
    · rw [Part.take]
      constructor
      · exact fun h ↦ ⟨[], [], rfl, .inl rfl, h⟩
      · rintro ⟨w, r, hs, -, hk⟩
        obtain ⟨rfl, rfl⟩ := List.append_eq_nil_iff.mp hs.symm
        exact hk
    · rw [Part.take, Bool.or_eq_true, Bool.and_eq_true, decide_eq_true_iff, afterMany_iff]
      constructor
      · rintro (h | ⟨rfl, w, r, rfl, hw, hk⟩)
        · exact ⟨[], b :: s, rfl, .inl rfl, h⟩
        · exact ⟨b :: w, r, rfl, .inr ⟨w, rfl, hw⟩, hk⟩
      · rintro ⟨w, r, hs, rfl | ⟨v, rfl, hv⟩, hk⟩
        · exact .inl (by simpa [hs] using hk)
        · obtain ⟨rfl, rfl⟩ := List.cons.inj hs
          exact .inr ⟨rfl, v, r, rfl, hv, hk⟩

/-- **What a pattern matches.** The words that fall into one piece for each part. -/
theorem accepts_iff {ps : List (Part α)} {s : List α} :
    accepts ps s = true ↔
      ∃ ws : List (List α), List.Forall₂ Part.Denotes ps ws ∧ ws.flatten = s := by
  induction ps generalizing s with
  | nil =>
    rw [accepts, List.isEmpty_iff]
    constructor
    · rintro rfl
      exact ⟨[], .nil, rfl⟩
    · rintro ⟨ws, h, rfl⟩
      cases h
      rfl
  | cons p ps ih =>
    rw [accepts, Part.take_iff]
    constructor
    · rintro ⟨w, r, rfl, hw, hr⟩
      obtain ⟨ws, hws, rfl⟩ := ih.mp hr
      exact ⟨w :: ws, .cons hw hws, rfl⟩
    · rintro ⟨ws, h, rfl⟩
      cases h with
      | cons hw hws => exact ⟨_, _, rfl, hw, ih.mpr ⟨_, hws, rfl⟩⟩

/-- A word that starts with a piece of the first part, and goes on with a match of the others. -/
theorem accepts_cons {p : Part α} {ps : List (Part α)} {w r : List α} (hw : p.Denotes w)
    (hr : accepts ps r = true) : accepts (p :: ps) (w ++ r) = true :=
  Part.take_iff.mpr ⟨w, r, rfl, hw, hr⟩

end Matching

end Pattern
