import Mathlib.Data.List.Chain
import Mathlib.Init
import Mathlib.Logic.Relation

/-!
# What holds along a run

A run makes one move after the other, each in the state the last one left. `Along` says that
something holds of every move in the state it is made in. It is how two properties of runs are
compared: if one of them keeps an invariant, and the two agree wherever the invariant holds, then
they hold along the same runs.
-/

/-!
## Paths and their steps

A path is given by where it starts and the places it goes to, one after the other. Its steps are
the pairs of places next to each other, and a relation it keeps to holds of every step. A path is
extended at its end.
-/

namespace Path

variable {α : Type} {R : α → α → Prop} {a b : α} {path rest : List α}

/-- The pairs of places next to each other. -/
def steps : α → List α → List (α × α)
  | _, [] => []
  | a, b :: path => (a, b) :: steps b path

theorem steps_concat (a b : α) (path : List α) :
    steps a (path ++ [b]) = steps a path ++ [(path.getLastD a, b)] := by
  induction path generalizing a with
  | nil => rfl
  | cons c path ih => rw [List.cons_append, steps, steps, ih, List.getLastD_cons, List.cons_append]

theorem isChain_concat : List.IsChain R (a :: (path ++ [b])) ↔
    List.IsChain R (a :: path) ∧ R (path.getLastD a) b := by
  induction path generalizing a with
  | nil => simp
  | cons c path ih =>
    rw [List.cons_append, List.isChain_cons_cons, ih, List.isChain_cons_cons, List.getLastD_cons,
      and_assoc]

/-- The end of a path is reached from every place on it. -/
theorem reaches_end (h : List.IsChain R (a :: (path ++ rest))) :
    Relation.ReflTransGen R (path.getLastD a) ((path ++ rest).getLastD a) := by
  induction rest using List.reverseRecOn with
  | nil => rw [List.append_nil]
  | append_singleton rest b ih =>
    rw [← List.append_assoc, isChain_concat] at h
    rw [← List.append_assoc, List.getLastD_concat]
    exact (ih h.1).tail h.2

/-- A path whose steps all lead elsewhere takes no step twice in a row. -/
theorem isChain_ne_steps (h : List.IsChain (· ≠ ·) (a :: path)) :
    List.IsChain (· ≠ ·) (steps a path) := by
  induction path generalizing a with
  | nil => exact .nil
  | cons b path ih =>
    rw [List.isChain_cons_cons] at h
    have hrest := ih h.2
    cases path with
    | nil => exact .singleton _
    | cons c path =>
      refine List.isChain_cons_cons.mpr ⟨fun heq ↦ h.1 ?_, hrest⟩
      exact congrArg Prod.fst heq

end Path

namespace Run

variable {σ μ : Type} (step : μ → σ → σ)

/-- Something holds of every move of a run, in the state the move is made in. -/
def Along (P : μ → σ → Prop) : List μ → σ → Prop
  | [], _ => True
  | move :: moves, s => P move s ∧ Along P moves (step move s)

/-- The state a run ends in. -/
def run : List μ → σ → σ
  | [], s => s
  | move :: moves, s => run moves (step move s)

variable {step} in
/-- Whether something holds along a run can be found out by making the run. -/
instance Along.instDecidable {P : μ → σ → Prop} [∀ move s, Decidable (P move s)] :
    ∀ moves s, Decidable (Along step P moves s)
  | [], _ => .isTrue trivial
  | move :: moves, s =>
    have := Along.instDecidable (P := P) moves (step move s)
    inferInstanceAs (Decidable (P move s ∧ Along step P moves (step move s)))

variable {step} {P Q : μ → σ → Prop} {inv : σ → Prop}

/-- **Two properties that agree** in every state of an invariant hold along the same runs. The one
has to keep the invariant, the other need not. -/
theorem along_iff_along (hstep : ∀ move s, inv s → P move s → inv (step move s))
    (hiff : ∀ move s, inv s → (P move s ↔ Q move s)) (moves : List μ) {s : σ} (hs : inv s) :
    Along step P moves s ↔ Along step Q moves s := by
  induction moves generalizing s with
  | nil => exact Iff.rfl
  | cons move moves ih =>
    rw [Along, Along, ← hiff move s hs]
    exact and_congr_right fun h ↦ ih (hstep move s hs h)

/-- What holds along a run with an invariant may use the invariant. -/
theorem Along.imp (hstep : ∀ move s, inv s → P move s → inv (step move s))
    (himp : ∀ move s, inv s → P move s → Q move s) {moves : List μ} {s : σ} (hs : inv s)
    (h : Along step P moves s) : Along step Q moves s := by
  induction moves generalizing s with
  | nil => exact h
  | cons move moves ih => exact ⟨himp move s hs h.1, ih (hstep move s hs h.1) h.2⟩

theorem run_append (moves moves' : List μ) (s : σ) :
    run step (moves ++ moves') s = run step moves' (run step moves s) := by
  induction moves generalizing s with
  | nil => rfl
  | cons move moves ih => exact ih (step move s)

theorem along_append {moves moves' : List μ} {s : σ} : Along step P (moves ++ moves') s ↔
    Along step P moves s ∧ Along step P moves' (run step moves s) := by
  induction moves generalizing s with
  | nil => exact (and_iff_right trivial).symm
  | cons move moves ih =>
    rw [List.cons_append, Along, Along, ih, and_assoc]
    exact Iff.rfl

/-- What holds along a run holds of each of its moves somewhere. -/
theorem Along.exists_of_mem {moves : List μ} {s : σ} (h : Along step P moves s) {move : μ}
    (hm : move ∈ moves) : ∃ s', P move s' := by
  induction moves generalizing s with
  | nil => exact absurd hm List.not_mem_nil
  | cons m moves ih =>
    rcases List.mem_cons.mp hm with rfl | hm
    · exact ⟨s, h.1⟩
    · exact ih h.2 hm

/-- **A run keeps what its moves keep.** -/
theorem Along.run (hstep : ∀ move s, inv s → P move s → inv (step move s)) {moves : List μ} {s : σ}
    (hs : inv s) (h : Along step P moves s) : inv (run step moves s) := by
  induction moves generalizing s with
  | nil => exact hs
  | cons move moves ih => exact ih (hstep move s hs h.1) h.2

/-- What every move keeps, every run keeps. -/
theorem run_of_step (hstep : ∀ move s, inv s → inv (step move s)) (moves : List μ) {s : σ}
    (hs : inv s) : inv (Run.run step moves s) := by
  induction moves generalizing s with
  | nil => exact hs
  | cons move moves ih => exact ih (hstep move s hs)

/-- **What a run has recorded**, some move of it recorded, if it was not there before. -/
theorem mem_run_cases {α : Type} {log : σ → List α} {Q : α → μ → σ → Prop}
    (hinv : ∀ move s, inv s → inv (step move s))
    (hstep : ∀ x move s, inv s → x ∈ log (step move s) → x ∈ log s ∨ Q x move s) {moves : List μ}
    {s : σ} (hs : inv s) {x : α} (hx : x ∈ log (Run.run step moves s)) :
    x ∈ log s ∨ ∃ before move after, moves = before ++ move :: after ∧
      Q x move (Run.run step before s) := by
  induction moves generalizing s with
  | nil => exact .inl hx
  | cons move moves ih =>
    rcases ih (hinv move s hs) hx with hx | ⟨before, m, after, rfl, hm⟩
    · exact (hstep x move s hs hx).imp_right fun h ↦ ⟨[], move, moves, rfl, h⟩
    · exact .inr ⟨move :: before, m, after, rfl, hm⟩

/-- What a move records stays recorded, where nothing is taken back. -/
theorem mem_run_of_mem {α : Type} {log : σ → List α}
    (hinv : ∀ move s, inv s → inv (step move s))
    (hkeep : ∀ x move s, inv s → x ∈ log s → x ∈ log (step move s)) {x : α} {before after : List μ}
    {move : μ} {s : σ} (hs : inv s) (hx : x ∈ log (step move (Run.run step before s))) :
    x ∈ log (Run.run step (before ++ move :: after) s) := by
  have hbefore := hinv move _ (run_of_step hinv before hs)
  have hboth : ∀ m s, inv s ∧ x ∈ log s → inv (step m s) ∧ x ∈ log (step m s) :=
    fun m s h ↦ ⟨hinv m s h.1, hkeep x m s h.1 h.2⟩
  rw [run_append]
  exact (run_of_step hboth after ⟨hbefore, hx⟩).2

end Run
