import Mathlib.Data.List.Forall2
import Mathlib.Data.Set.Basic

/-!
# Actions that read and write places

An action answers and writes, and both depend on the store it is run in. If it reads only some
places and writes only some, then two actions of which neither writes what the other touches do not
see each other. Such actions can be run in any order.
-/

namespace Access

variable {π ν ρ α : Type}

/-- What an action answers, and what it writes to which place. -/
abbrev Action (π ν ρ : Type) := (π → ν) → ρ × (π → Option ν)

section Action

variable {a b : Action π ν ρ} {R W R' W' : Set π} {s : π → ν} {p : π}

/-- The store after an action. -/
def after (a : Action π ν ρ) (s : π → ν) : π → ν := fun p ↦ ((a s).2 p).getD (s p)

/-- The action depends on no place but those of `R`, and writes to none but those of `W`. -/
structure Within (a : Action π ν ρ) (R W : Set π) : Prop where
  reads : ∀ s s', (∀ p ∈ R, s p = s' p) → a s = a s'
  writes : ∀ s, ∀ p ∉ W, (a s).2 p = none

/-- Neither action sees the other, and it makes no difference which comes first. -/
structure Independent (a b : Action π ν ρ) : Prop where
  left : ∀ s, a (after b s) = a s
  right : ∀ s, b (after a s) = b s
  comm : ∀ s, after a (after b s) = after b (after a s)

theorem Independent.symm (h : Independent a b) : Independent b a :=
  ⟨h.right, h.left, fun s ↦ (h.comm s).symm⟩

theorem Within.after_of_notMem (h : Within a R W) (hp : p ∉ W) : after a s p = s p := by
  rw [after, h.writes s p hp, Option.getD_none]

/-- An action does not see what it does not read. -/
theorem Within.eq_after (ha : Within a R W) (hb : Within b R' W')
    (h : ∀ p ∈ R, p ∉ W') : a (after b s) = a s :=
  ha.reads _ _ fun p hp ↦ hb.after_of_notMem (h p hp)

/-- **Actions that touch different places.** -/
theorem Within.independent (ha : Within a R W) (hb : Within b R' W')
    (hR : ∀ p ∈ R, p ∉ W') (hR' : ∀ p ∈ R', p ∉ W) (hW : ∀ p ∈ W, p ∉ W') : Independent a b where
  left _ := ha.eq_after hb hR
  right _ := hb.eq_after ha hR'
  comm s := by
    have hab : a (after b s) = a s := ha.eq_after hb hR
    have hba : b (after a s) = b s := hb.eq_after ha hR'
    funext p
    rw [after, hab, after, after, hba, after]
    by_cases hp : p ∈ W
    · have hnone : (b s).2 p = none := hb.writes s p (hW p hp)
      rw [hnone, Option.getD_none, Option.getD_none]
    · rw [ha.writes s p hp, Option.getD_none, Option.getD_none]

end Action

/-! ## Runs -/

section Run

variable (act : α → Action π ν ρ) {l l' : List α} {s : π → ν}

/-- Run the actions one after the other. Each answer is kept with what it answers. -/
def run : List α → (π → ν) → List (α × ρ) × (π → ν)
  | [], s => ([], s)
  | c :: cs, s => ((c, (act c s).1) :: (run cs (after (act c) s)).1, (run cs (after (act c) s)).2)

theorem run_append (l l' : List α) (s : π → ν) :
    run act (l ++ l') s =
      ((run act l s).1 ++ (run act l' (run act l s).2).1, (run act l' (run act l s).2).2) := by
  induction l generalizing s with
  | nil => rfl
  | cons c cs ih => rw [List.cons_append, run, run, ih, List.cons_append]

/-- Two runs that leave the same store and give the same answers, in whatever order. -/
def Same (r r' : List (α × ρ) × (π → ν)) : Prop := r.1.Perm r'.1 ∧ r.2 = r'.2

variable {act}

/-- **Independent actions in any order.** -/
theorem run_perm (h : l.Perm l')
    (hl : l.Pairwise fun c d ↦ Independent (act c) (act d)) (s : π → ν) :
    Same (run act l s) (run act l' s) := by
  induction h generalizing s with
  | nil => exact ⟨.refl _, rfl⟩
  | cons c _ ih =>
    obtain ⟨hanswers, hstore⟩ := ih (List.pairwise_cons.mp hl).2 (after (act c) s)
    exact ⟨hanswers.cons _, hstore⟩
  | swap c d l =>
    have hdc : Independent (act d) (act c) := (List.pairwise_cons.mp hl).1 c List.mem_cons_self
    rw [run, run, run, run, hdc.right, hdc.left, hdc.comm]
    exact ⟨.swap _ _ _, rfl⟩
  | trans h _ ih ih' =>
    have hl' := (h.pairwise_iff fun {c d} (hcd : Independent (act c) (act d)) ↦ hcd.symm).mp hl
    obtain ⟨hanswers, hstore⟩ := ih hl s
    obtain ⟨hanswers', hstore'⟩ := ih' hl' s
    exact ⟨hanswers.trans hanswers', hstore.trans hstore'⟩

/-- **Blocks.** Within each block the actions may be run in any order. -/
theorem run_flatten {orders blocks : List (List α)}
    (h : List.Forall₂ List.Perm orders blocks)
    (hblocks : ∀ block ∈ blocks, block.Pairwise fun c d ↦ Independent (act c) (act d))
    (s : π → ν) : Same (run act orders.flatten s) (run act blocks.flatten s) := by
  induction h generalizing s with
  | nil => exact ⟨.refl _, rfl⟩
  | @cons order block orders blocks hperm _ ih =>
    rw [List.forall_mem_cons] at hblocks
    have hsame := run_perm hperm.symm hblocks.1 s
    obtain ⟨hanswers, hstore⟩ := ih hblocks.2 (run act block s).2
    rw [List.flatten_cons, List.flatten_cons, run_append, run_append, ← hsame.2]
    exact ⟨hsame.1.symm.append hanswers, hstore⟩

end Run

end Access
