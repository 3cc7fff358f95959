import Mathlib.Logic.Function.Basic
import Mathlib.Order.Nat

/-!
# A name and the files that have it

A lock file is a name in a directory. Who creates it exclusively gives the name a new file; who
removes the name leaves the file to those that have it open, and the next to create gets another
file. So the name may stand for different files at different times, and what was read of one need
not be true of the next.

Who rests a claim on a file it has created itself shares it with nobody, as long as the name stands
for that file: `Slot.eq_of_creator`.
-/

/-- A name, the file it stands for, and what was written to each file that ever had it. -/
structure Slot (κ γ : Type) where
  /-- The file the name stands for. -/
  here : Option ℕ
  /-- The file that is created next. -/
  next : ℕ
  /-- What was written to the file. A new file is empty. -/
  content : ℕ → Option γ
  creator : ℕ → Option κ
  here_lt : ∀ g, here = some g → g < next
  fresh : ∀ g, next ≤ g → content g = none

namespace Slot

variable {κ γ : Type} (s : Slot κ γ)

/-- What is found under the name: the file, and its content. -/
def read : Option (ℕ × Option γ) := s.here.map fun g ↦ (g, s.content g)

/-- The name gets a new file. -/
def create (c : Option κ) : Slot κ γ where
  here := some s.next
  next := s.next + 1
  content := s.content
  creator := Function.update s.creator s.next c
  here_lt g hg := by
    cases hg
    exact Nat.lt_succ_self s.next
  fresh g hg := s.fresh g (Nat.le_of_succ_le hg)

/-- Put a content into a file, whether or not it still has the name. -/
def set (g : ℕ) (c : Option γ) : Slot κ γ where
  here := s.here
  next := s.next
  content := if g < s.next then Function.update s.content g c else s.content
  creator := s.creator
  here_lt := s.here_lt
  fresh g' hg' := by
    split_ifs with hg
    · rw [Function.update_of_ne (Nat.ne_of_gt (Nat.lt_of_lt_of_le hg hg')), s.fresh g' hg']
    · exact s.fresh g' hg'

/-- The name is removed. -/
def unlink : Slot κ γ where
  here := none
  next := s.next
  content := s.content
  creator := s.creator
  here_lt _ hg := by cases hg
  fresh := s.fresh

variable {s}

@[simp] theorem here_create (c : Option κ) : (s.create c).here = some s.next := rfl
@[simp] theorem next_create (c : Option κ) : (s.create c).next = s.next + 1 := rfl
@[simp] theorem content_create (c : Option κ) : (s.create c).content = s.content := rfl
@[simp] theorem here_set (g : ℕ) (c : Option γ) : (s.set g c).here = s.here := rfl
@[simp] theorem next_set (g : ℕ) (c : Option γ) : (s.set g c).next = s.next := rfl
@[simp] theorem creator_set (g : ℕ) (c : Option γ) : (s.set g c).creator = s.creator := rfl
@[simp] theorem here_unlink : s.unlink.here = none := rfl
@[simp] theorem next_unlink : s.unlink.next = s.next := rfl
@[simp] theorem content_unlink : s.unlink.content = s.content := rfl
@[simp] theorem creator_unlink : s.unlink.creator = s.creator := rfl

theorem creator_create_self (c : Option κ) : (s.create c).creator s.next = c :=
  Function.update_self _ _ _

theorem creator_create_of_lt {g : ℕ} (hg : g < s.next) (c : Option κ) :
    (s.create c).creator g = s.creator g :=
  Function.update_of_ne (Nat.ne_of_lt hg) _ _

theorem lt_of_content {g : ℕ} {x : γ} (h : s.content g = some x) : g < s.next := by
  by_contra hg
  rw [s.fresh g (Nat.le_of_not_lt hg)] at h
  cases h

theorem content_set_self {g : ℕ} (hg : g < s.next) (c : Option γ) : (s.set g c).content g = c := by
  change (if g < s.next then Function.update s.content g c else s.content) g = c
  rw [if_pos hg, Function.update_self]

theorem content_set_of_ne {g g' : ℕ} (h : g' ≠ g) (c : Option γ) :
    (s.set g c).content g' = s.content g' := by
  change (if g < s.next then Function.update s.content g c else s.content) g' = s.content g'
  split_ifs
  · rw [Function.update_of_ne h]
  · rfl

theorem read_eq_some_iff {g : ℕ} {c : Option γ} :
    s.read = some (g, c) ↔ s.here = some g ∧ s.content g = c := by
  rw [read, Option.map_eq_some_iff]
  constructor
  · rintro ⟨g', hhere, heq⟩
    cases heq
    exact ⟨hhere, rfl⟩
  · rintro ⟨hhere, rfl⟩
    exact ⟨g, hhere, rfl⟩

/-- **Two that rest on their own files** under one name are the same. -/
theorem eq_of_creator {g g' : ℕ} {c c' : κ} (h : s.here = some g) (h' : s.here = some g')
    (hc : s.creator g = some c) (hc' : s.creator g' = some c') : c = c' := by
  obtain rfl : g = g' := Option.some.inj (h.symm.trans h')
  exact Option.some.inj (hc.symm.trans hc')

end Slot
