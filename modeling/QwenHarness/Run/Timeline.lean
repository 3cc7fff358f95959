import Mathlib.Data.List.Basic
import Mathlib.Data.Nat.Notation

/-!
# Bounded undo and redo

A timeline has a present, the pasts that can be taken back and the futures that can be made again,
the nearest of each last. No more than a number of them are kept, the nearest.

Taking back and making again is the identity as long as there is room for one more future. This is
what `Fits` says: a commit drops the futures, and from then on a past is given up for each future
that is gained.
-/

namespace Run

variable {σ : Type}

/-- The last items of a list, at most a number of them. -/
def bounded (max : ℕ) (items : List σ) : List σ :=
  if items.length ≤ max then items else items.drop (items.length - max)

theorem bounded_of_le {max : ℕ} {items : List σ} (h : items.length ≤ max) :
    bounded max items = items := if_pos h

theorem length_bounded (max : ℕ) (items : List σ) :
    (bounded max items).length = min items.length max := by
  rw [bounded]
  split_ifs with h
  · exact (Nat.min_eq_left h).symm
  · rw [List.length_drop]
    omega

theorem mem_of_mem_bounded {max : ℕ} {items : List σ} {a : σ} (h : a ∈ bounded max items) :
    a ∈ items := by
  rw [bounded] at h
  split_ifs at h
  · exact h
  · exact List.mem_of_mem_drop h

theorem getLast?_bounded_append {max : ℕ} (h : 1 ≤ max) (items : List σ) (a : σ) :
    (bounded max (items ++ [a])).getLast? = some a := by
  rw [bounded]
  split_ifs with hle
  · exact List.getLast?_concat
  · rw [List.length_append, List.length_singleton] at hle ⊢
    rw [List.drop_append_of_le_length (by omega)]
    exact List.getLast?_concat

/-! ## Timelines -/

structure Timeline (σ : Type) where
  present : σ
  past : List σ
  future : List σ

namespace Timeline

variable (max : ℕ)

/-- A new present, which can be taken back. -/
def commit (t : Timeline σ) (next : σ) : Timeline σ :=
  ⟨next, bounded max (t.past ++ [t.present]), []⟩

def undo (t : Timeline σ) : Timeline σ :=
  match t.past.getLast? with
  | none => t
  | some previous => ⟨previous, t.past.dropLast, bounded max (t.future ++ [t.present])⟩

def redo (t : Timeline σ) : Timeline σ :=
  match t.future.getLast? with
  | none => t
  | some next => ⟨next, bounded max (t.past ++ [t.present]), t.future.dropLast⟩

/-- There is room for every past to become a future. -/
def Fits (t : Timeline σ) : Prop := t.past.length + t.future.length ≤ max

/-- Something holds of the present, and of all that can come back. -/
structure All (P : σ → Prop) (t : Timeline σ) : Prop where
  present : P t.present
  past : ∀ a ∈ t.past, P a
  future : ∀ a ∈ t.future, P a

variable {max} {P : σ → Prop} {t : Timeline σ} {next : σ}

theorem undo_of_getLast? {previous : σ} (h : t.past.getLast? = some previous) :
    t.undo max = ⟨previous, t.past.dropLast, bounded max (t.future ++ [t.present])⟩ := by
  rw [Timeline.undo, h]

theorem redo_of_getLast? (h : t.future.getLast? = some next) :
    t.redo max = ⟨next, bounded max (t.past ++ [t.present]), t.future.dropLast⟩ := by
  rw [Timeline.redo, h]

theorem getLast?_eq_some {l : List σ} (h : l ≠ []) : ∃ a, l.getLast? = some a :=
  ⟨l.getLast h, List.getLast?_eq_some_getLast h⟩

theorem forall_mem_bounded {l : List σ} {a : σ} (hl : ∀ b ∈ l, P b) (ha : P a) :
    ∀ b ∈ bounded max (l ++ [a]), P b := by
  intro b hb
  rcases List.mem_append.mp (mem_of_mem_bounded hb) with hb | hb
  · exact hl b hb
  · rwa [List.mem_singleton.mp hb]

theorem All.commit (h : t.All P) (hnext : P next) : (t.commit max next).All P :=
  ⟨hnext, forall_mem_bounded h.past h.present, fun _ ha ↦ absurd ha List.not_mem_nil⟩

theorem All.undo (h : t.All P) : (t.undo max).All P := by
  rcases hlast : t.past.getLast? with - | previous
  · rwa [Timeline.undo, hlast]
  · rw [undo_of_getLast? hlast]
    exact ⟨h.past previous (List.mem_of_getLast? hlast),
      fun a ha ↦ h.past a (List.dropLast_subset _ ha), forall_mem_bounded h.future h.present⟩

theorem All.redo (h : t.All P) : (t.redo max).All P := by
  rcases hlast : t.future.getLast? with - | next
  · rwa [Timeline.redo, hlast]
  · rw [redo_of_getLast? hlast]
    exact ⟨h.future next (List.mem_of_getLast? hlast), forall_mem_bounded h.past h.present,
      fun a ha ↦ h.future a (List.dropLast_subset _ ha)⟩

theorem fits_commit (t : Timeline σ) (next : σ) : (t.commit max next).Fits max := by
  rw [Fits, Timeline.commit, length_bounded, List.length_nil]
  omega

/-- One end gains what the other loses. -/
theorem length_bounded_concat_le (max : ℕ) (l : List σ) (a : σ) :
    (bounded max (l ++ [a])).length ≤ l.length + 1 := by
  rw [length_bounded, List.length_append, List.length_singleton]
  exact Nat.min_le_left _ _

theorem Fits.undo (h : t.Fits max) : (t.undo max).Fits max := by
  rcases hlast : t.past.getLast? with - | previous
  · rwa [Timeline.undo, hlast]
  · have hpos := List.length_pos_of_mem (List.mem_of_getLast? hlast)
    have hgain := length_bounded_concat_le max t.future t.present
    rw [Fits] at h
    rw [undo_of_getLast? hlast, Fits]
    dsimp only
    rw [List.length_dropLast]
    omega

theorem Fits.redo (h : t.Fits max) : (t.redo max).Fits max := by
  rcases hlast : t.future.getLast? with - | next
  · rwa [Timeline.redo, hlast]
  · have hpos := List.length_pos_of_mem (List.mem_of_getLast? hlast)
    have hgain := length_bounded_concat_le max t.past t.present
    rw [Fits] at h
    rw [redo_of_getLast? hlast, Fits]
    dsimp only
    rw [List.length_dropLast]
    omega

/-- A commit can be taken back. -/
theorem undo_commit_present (h : 1 ≤ max) (t : Timeline σ) (next : σ) :
    ((t.commit max next).undo max).present = t.present := by
  rw [Timeline.undo, Timeline.commit, getLast?_bounded_append h]

/-- **What was taken back is made again**, with all pasts and futures. -/
theorem redo_undo (h : t.Fits max) (hpast : t.past ≠ []) : (t.undo max).redo max = t := by
  obtain ⟨previous, hlast⟩ := getLast?_eq_some hpast
  have hpos := List.length_pos_of_ne_nil hpast
  have hfuture : bounded max (t.future ++ [t.present]) = t.future ++ [t.present] := by
    refine bounded_of_le ?_
    rw [Fits] at h
    rw [List.length_append, List.length_singleton]
    omega
  have hjoin : t.past.dropLast ++ [previous] = t.past := by
    rw [List.getLast?_eq_some_getLast hpast, Option.some.injEq] at hlast
    rw [← hlast, List.dropLast_append_getLast]
  have hpasts : bounded max (t.past.dropLast ++ [previous]) = t.past := by
    rw [hjoin]
    exact bounded_of_le (Nat.le_trans (Nat.le_add_right _ _) h)
  rw [undo_of_getLast? hlast, hfuture, redo_of_getLast? List.getLast?_concat, hpasts,
    List.dropLast_concat]

end Timeline

end Run
