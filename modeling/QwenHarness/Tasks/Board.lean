import Mathlib.Logic.Function.Basic
import Mathlib.Logic.Relation
import QwenHarness.Tasks.StateMachine

/-!
# What a task graph is for

A board shows where every task is, who owns it, and which task waits for which. It is lawful if no
task waits for itself, not even by a detour, if every blocked task waits for one that is still open,
if every task that can be picked up waits for none, and if a task has an owner exactly as long as it
is in somebody's hands.

Most changes touch one task, and `Lawful.change` says what has to be looked at: that task. To finish
a task touches also the tasks that wait for it, and `Lawful.finish` is about that.
-/

namespace QwenHarness.Tasks

open Relation

/-- Where the tasks are, and who waits for whom. -/
@[ext] structure Board (ι ο : Type) where
  state : ι → Option (TaskStatus × Option ο)
  /-- The second task waits for the first. -/
  waits : ι → ι → Prop

namespace Board

variable {ι ο : Type}

/-- Completed or deleted. -/
def Done (B : Board ι ο) (a : ι) : Prop := ∃ s o, B.state a = some (s, o) ∧ isSatisfied s = true

/-- The task waits for one that is still open. -/
def Waiting (B : Board ι ο) (a : ι) : Prop := ∃ b, B.waits b a ∧ ¬ B.Done b

/-- What must hold of one task. -/
structure Sound (B : Board ι ο) (a : ι) (s : TaskStatus) (o : Option ο) : Prop where
  waiting : s = .blocked → B.Waiting a
  ready : isClaimable s = true → ¬ B.Waiting a
  owned : isOwned s = true → o ≠ none
  free : s = .pending ∨ s = .blocked ∨ s = .released → o = none

structure Lawful (B : Board ι ο) : Prop where
  acyclic : ∀ a, ¬ TransGen B.waits a a
  joined : ∀ a b, B.waits a b → B.state a ≠ none ∧ B.state b ≠ none
  sound : ∀ a s o, B.state a = some (s, o) → B.Sound a s o

section Changes

variable [DecidableEq ι]

/-- The task is where it is put. -/
def put (B : Board ι ο) (id : ι) (s : TaskStatus × Option ο) : Board ι ο :=
  { B with state := Function.update B.state id (some s) }

/-- The task, if there is one, is moved. -/
def adjust (B : Board ι ο) (id : ι) (f : TaskStatus × Option ο → TaskStatus × Option ο) :
    Board ι ο :=
  { B with state := Function.update B.state id ((B.state id).map f) }

end Changes

/-- The task waits for more. -/
def link (B : Board ι ο) (id : ι) (blockers : ι → Prop) : Board ι ο :=
  { B with waits := fun a b ↦ B.waits a b ∨ b = id ∧ blockers a }

/-- The board without tasks. -/
def empty : Board ι ο := ⟨fun _ ↦ none, fun _ _ ↦ False⟩

theorem lawful_empty : (empty : Board ι ο).Lawful where
  acyclic a h := by
    obtain ⟨b, -, hb⟩ := TransGen.tail'_iff.mp h
    exact hb
  joined _ _ h := h.elim
  sound a s o h := by cases h

variable {B B' : Board ι ο} {id : ι}

theorem done_of_state {s : TaskStatus} {o : Option ο} (h : B.state id = some (s, o)) :
    B.Done id ↔ isSatisfied s = true := by
  constructor
  · rintro ⟨s', o', h', hs⟩
    obtain ⟨rfl, -⟩ := Prod.mk.inj (Option.some.inj (h.symm.trans h'))
    exact hs
  · intro hs
    exact ⟨s, o, h, hs⟩

theorem not_waiting_iff {a : ι} : ¬ B.Waiting a ↔ ∀ b, B.waits b a → B.Done b := by
  rw [Waiting, not_exists]
  exact forall_congr' fun b ↦ by rw [not_and, not_not]

theorem Sound.congr {a : ι} {s : TaskStatus} {o : Option ο} (h : B.Sound a s o)
    (hw : B'.Waiting a ↔ B.Waiting a) : B'.Sound a s o where
  waiting hs := hw.mpr (h.waiting hs)
  ready hs hw' := h.ready hs (hw.mp hw')
  owned := h.owned
  free := h.free

/-- Nothing is asked of a task that is done with. -/
theorem Sound.of_done {a : ι} {s : TaskStatus} {o : Option ο} (hs : isSatisfied s = true) :
    B.Sound a s o := by
  have hcases : s = .completed ∨ s = .deleted := of_decide_eq_true hs
  constructor
  · rintro rfl
    exact absurd hs (by decide)
  · intro hclaim
    rcases hcases with rfl | rfl <;> exact absurd hclaim (by decide)
  · intro howned
    rcases hcases with rfl | rfl <;> exact absurd howned (by decide)
  · rintro (rfl | rfl | rfl) <;> exact absurd hs (by decide)

/-- A task without an owner that waits for nothing can be picked up. -/
theorem Sound.of_claimable {a : ι} {s : TaskStatus} (hs : isClaimable s = true)
    (ha : ¬ B.Waiting a) : B.Sound a s none := by
  refine ⟨?_, fun _ ↦ ha, ?_, fun _ ↦ rfl⟩
  · rintro rfl
    exact absurd hs (by decide)
  · intro howned
    have hcases : s = .pending ∨ s = .released := by simpa [isClaimable] using hs
    rcases hcases with rfl | rfl <;> exact absurd howned (by decide)

/-- A task that waits is blocked. -/
theorem Sound.of_waiting {a : ι} (ha : B.Waiting a) : B.Sound a .blocked none where
  waiting _ := ha
  ready h := absurd h (by decide)
  owned h := absurd h (by decide)
  free _ := rfl

/-- Nothing is asked of a task in somebody's hands but that it has an owner. -/
theorem Sound.of_owned {a : ι} {s : TaskStatus} {o : ο} (hs : isOwned s = true) :
    B.Sound a s (some o) := by
  have hcases : s = .claimed ∨ s = .inProgress := by simpa [isOwned] using hs
  constructor
  · rintro rfl
    exact absurd hs (by decide)
  · intro hclaim
    rcases hcases with rfl | rfl <;> exact absurd hclaim (by decide)
  · exact fun _ ↦ Option.some_ne_none o
  · rintro (rfl | rfl | rfl) <;> exact absurd hs (by decide)

/-- **A change of one task**, with edges that lead into it, leaves a lawful board lawful when the
task itself comes out sound, no cycle is closed and what is done with stays so. -/
theorem Lawful.change (hB : B.Lawful) (hstate : ∀ a, a ≠ id → B'.state a = B.state a)
    (hdone : B'.Done id ↔ B.Done id) (hkeep : B.state id ≠ none → B'.state id ≠ none)
    (hwaits : ∀ a b, b ≠ id → (B'.waits a b ↔ B.waits a b))
    (hjoined : ∀ a, B'.waits a id → B'.state a ≠ none ∧ B'.state id ≠ none)
    (hacyclic : ∀ a, ¬ TransGen B'.waits a a)
    (hsound : ∀ s o, B'.state id = some (s, o) → B'.Sound id s o) : B'.Lawful where
  acyclic := hacyclic
  joined a b hab := by
    by_cases hb : b = id
    · subst hb
      exact hjoined a hab
    · obtain ⟨ha', hb'⟩ := hB.joined a b ((hwaits a b hb).mp hab)
      refine ⟨?_, by rwa [hstate b hb]⟩
      by_cases ha : a = id
      · subst ha
        exact hkeep ha'
      · rwa [hstate a ha]
  sound a s o h := by
    by_cases ha : a = id
    · subst ha
      exact hsound s o h
    · have hdone' : ∀ b, B'.Done b ↔ B.Done b := by
        intro b
        by_cases hb : b = id
        · rw [hb, hdone]
        · rw [Done, Done, hstate b hb]
      refine (hB.sound a s o (by rwa [← hstate a ha])).congr ?_
      exact exists_congr fun b ↦ and_congr (hwaits b a ha) (not_congr (hdone' b))

/-- **To finish a task** leaves a lawful board lawful when every task that was blocked and waits for
nothing else any more is made pending. -/
theorem Lawful.finish (hB : B.Lawful) {s : TaskStatus} {o : Option ο} (hs : isSatisfied s = true)
    (hid : B'.state id = some (s, o)) (hold : B.state id ≠ none)
    (hwaits : ∀ a b, B'.waits a b ↔ B.waits a b)
    (hflip : ∀ a, a ≠ id → B.waits id a → (∃ o, B.state a = some (.blocked, o)) →
      (∀ b, B.waits b a → b ≠ id → B.Done b) → B'.state a = some (.pending, none))
    (hstay : ∀ a, a ≠ id → ¬ (B.waits id a ∧ (∃ o, B.state a = some (.blocked, o)) ∧
      ∀ b, B.waits b a → b ≠ id → B.Done b) → B'.state a = B.state a) : B'.Lawful := by
  -- Nothing but the finished task is done with that was not before.
  have hdone : ∀ b, B'.Done b ↔ b = id ∨ B.Done b := by
    intro b
    by_cases hb : b = id
    · subst hb
      rw [done_of_state hid]
      exact iff_of_true hs (.inl rfl)
    · rw [or_iff_right hb]
      by_cases hf : B.waits id b ∧ (∃ o, B.state b = some (.blocked, o)) ∧
          ∀ c, B.waits c b → c ≠ id → B.Done c
      · obtain ⟨hwait, ⟨o', hblocked⟩, hrest⟩ := hf
        rw [done_of_state (hflip b hb hwait ⟨o', hblocked⟩ hrest), done_of_state hblocked]
        decide
      · rw [Done, Done, hstay b hb hf]
  have hsome : ∀ a, B.state a ≠ none → B'.state a ≠ none := by
    intro a ha
    by_cases haid : a = id
    · rw [haid, hid]
      exact Option.some_ne_none _
    · by_cases hf : B.waits id a ∧ (∃ o, B.state a = some (.blocked, o)) ∧
          ∀ c, B.waits c a → c ≠ id → B.Done c
      · rw [hflip a haid hf.1 hf.2.1 hf.2.2]
        exact Option.some_ne_none _
      · rwa [hstay a haid hf]
  refine ⟨fun a ha ↦ hB.acyclic a (TransGen.mono (fun _ _ ↦ (hwaits _ _).mp) a a ha),
    fun a b hab ↦ ?_, fun a s' o' ha ↦ ?_⟩
  · exact (hB.joined a b ((hwaits a b).mp hab)).imp (hsome a) (hsome b)
  · by_cases haid : a = id
    · obtain ⟨rfl, rfl⟩ := Prod.mk.inj (Option.some.inj (hid.symm.trans (haid ▸ ha)))
      exact .of_done hs
    · by_cases hf : B.waits id a ∧ (∃ o, B.state a = some (.blocked, o)) ∧
          ∀ c, B.waits c a → c ≠ id → B.Done c
      · obtain ⟨rfl, rfl⟩ := Prod.mk.inj
          (Option.some.inj ((hflip a haid hf.1 hf.2.1 hf.2.2).symm.trans ha))
        refine .of_claimable (by decide) (not_waiting_iff.mpr fun b hb ↦ ?_)
        rw [hdone]
        by_cases hbid : b = id
        · exact .inl hbid
        · exact .inr (hf.2.2 b ((hwaits b a).mp hb) hbid)
      · rw [hstay a haid hf] at ha
        have hsound := hB.sound a s' o' ha
        refine ⟨?_, ?_, hsound.owned, hsound.free⟩
        · rintro rfl
          obtain ⟨b, hba, hopen⟩ := hsound.waiting rfl
          by_cases hbid : b = id
          · -- It waited for the finished task, and something else is still open.
            subst hbid
            by_contra hnone
            rw [not_waiting_iff] at hnone
            refine hf ⟨hba, ⟨o', ha⟩, fun c hc hcb ↦ ?_⟩
            exact ((hdone c).mp (hnone c ((hwaits c a).mpr hc))).resolve_left hcb
          · exact ⟨b, (hwaits b a).mpr hba,
              fun h ↦ hopen (((hdone b).mp h).resolve_left hbid)⟩
        · rintro hclaim ⟨b, hba, hopen⟩
          refine hsound.ready hclaim ⟨b, (hwaits b a).mp hba, fun h ↦ hopen ?_⟩
          exact (hdone b).mpr (.inr h)

end Board

end QwenHarness.Tasks
