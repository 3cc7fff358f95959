import Mathlib.Data.List.Sort
import QwenHarness.Graph.Search
import QwenHarness.Table.First

/-!
# Dependencies between tasks

An edge from a blocker to a task says that the blocker must be done with before the task begins. All
of this is about plain lists of edges.
-/

namespace QwenHarness.Tasks

open EdgeList

structure DepEdge where
  blockerId : ℤ
  blockedId : ℤ
deriving DecidableEq, Repr

/-- The edge as a pair, blocker first. -/
def DepEdge.pair (e : DepEdge) : ℤ × ℤ := (e.blockerId, e.blockedId)

/-- The tasks that must complete before `id` can begin. -/
def blockersOf (edges : List DepEdge) (id : ℤ) : List ℤ :=
  (edges.filter fun e ↦ decide (e.blockedId = id)).map DepEdge.blockerId

/-- The tasks that are waiting on `id`. -/
def blocksOf (edges : List DepEdge) (id : ℤ) : List ℤ :=
  (edges.filter fun e ↦ decide (e.blockerId = id)).map DepEdge.blockedId

/-- Would the edge close a cycle? It would when it leads from a task to itself, or when the blocked
task already leads to the blocker. -/
def wouldCreateCycle (edges : List DepEdge) (blockerId blockedId : ℤ) : Bool :=
  decide (blockerId = blockedId) || reaches (edges.map DepEdge.pair) blockedId blockerId

def allBlockersCompleted (edges : List DepEdge) (id : ℤ) (isCompleted : ℤ → Bool) : Bool :=
  (blockersOf edges id).all isCompleted

/-- `[...new Set(ids)]`. -/
def distinct (ids : List ℤ) : List ℤ := Keyed.firsts id [] ids

/-- The tasks that can run now that `completedId` is done with, each once and in order. -/
def newlyUnblocked (edges : List DepEdge) (completedId : ℤ) (isBlocked isCompleted : ℤ → Bool) :
    List ℤ :=
  (distinct ((blocksOf edges completedId).filter fun t ↦
    isBlocked t && allBlockersCompleted edges t isCompleted)).insertionSort (· ≤ ·)

@[simp] theorem mem_distinct {ids : List ℤ} {a : ℤ} : a ∈ distinct ids ↔ a ∈ ids := by
  have hmem : a ∈ (Keyed.firsts id [] ids).map id ∨ a ∈ [] ↔ a ∈ ids.map id ∨ a ∈ [] :=
    Keyed.mem_map_firsts_or
  simpa [distinct] using hmem

section Edges

variable {edges : List DepEdge} {a b c : ℤ}

@[simp] theorem mem_blockersOf : b ∈ blockersOf edges c ↔ ⟨b, c⟩ ∈ edges := by
  rw [blockersOf, List.mem_map]
  constructor
  · rintro ⟨⟨b', c'⟩, he, rfl⟩
    rw [List.mem_filter, decide_eq_true_eq] at he
    obtain ⟨he, rfl⟩ := he
    exact he
  · intro h
    exact ⟨⟨b, c⟩, List.mem_filter.mpr ⟨h, decide_eq_true rfl⟩, rfl⟩

@[simp] theorem mem_blocksOf : a ∈ blocksOf edges c ↔ ⟨c, a⟩ ∈ edges := by
  rw [blocksOf, List.mem_map]
  constructor
  · rintro ⟨⟨c', a'⟩, he, rfl⟩
    rw [List.mem_filter, decide_eq_true_eq] at he
    obtain ⟨he, rfl⟩ := he
    exact he
  · intro h
    exact ⟨⟨c, a⟩, List.mem_filter.mpr ⟨h, decide_eq_true rfl⟩, rfl⟩

@[simp] theorem edge_pair : Edge (edges.map DepEdge.pair) a b ↔ ⟨a, b⟩ ∈ edges := by
  rw [Edge, List.mem_map]
  constructor
  · rintro ⟨⟨a', b'⟩, he, hpair⟩
    cases hpair
    exact he
  · intro h
    exact ⟨⟨a, b⟩, h, rfl⟩

theorem wouldCreateCycle_eq_false_iff :
    wouldCreateCycle edges a b = false ↔
      a ≠ b ∧ ¬ Relation.TransGen (Edge (edges.map DepEdge.pair)) b a := by
  rw [wouldCreateCycle, Bool.or_eq_false_iff, decide_eq_false_iff_not, ← Bool.not_eq_true,
    reaches_iff]

theorem allBlockersCompleted_iff {isCompleted : ℤ → Bool} :
    allBlockersCompleted edges c isCompleted = true ↔
      ∀ b, ⟨b, c⟩ ∈ edges → isCompleted b = true := by
  rw [allBlockersCompleted, List.all_eq_true]
  exact forall_congr' fun b ↦ by rw [mem_blockersOf]

/-- Exactly the blocked tasks that wait on the one that is done with, and on nothing else any
more. -/
theorem mem_newlyUnblocked {isBlocked isCompleted : ℤ → Bool} :
    a ∈ newlyUnblocked edges c isBlocked isCompleted ↔
      ⟨c, a⟩ ∈ edges ∧ isBlocked a = true ∧
        ∀ b, ⟨b, a⟩ ∈ edges → isCompleted b = true := by
  rw [newlyUnblocked, List.mem_insertionSort, mem_distinct, List.mem_filter, mem_blocksOf,
    Bool.and_eq_true, allBlockersCompleted_iff]

end Edges

end QwenHarness.Tasks
