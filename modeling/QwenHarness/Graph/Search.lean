import Mathlib.Data.List.Basic
import Mathlib.Logic.Relation
import Mathlib.Tactic.Common

/-!
# Searching a graph that is given by its edges

A graph is a list of edges. `reaches` searches it depth first, with a stack and a list of the nodes
already seen. Every round takes one node off the stack, and what the stack holds together with the
edges that leave nodes not yet seen goes down by one, so the number of edges bounds the rounds.

The search finds what there is to find: `reaches_iff`. The last section is about adding edges into
one node of any graph: they close a cycle only where the node already leads to one of their sources.
-/

namespace EdgeList

open Relation

variable {α : Type} [DecidableEq α]

/-- There is an edge from the first node to the second. -/
def Edge (edges : List (α × α)) (a b : α) : Prop := (a, b) ∈ edges

/-- The nodes the edges from a node lead to, in the order of the edges. -/
def targets (edges : List (α × α)) (a : α) : List α :=
  (edges.filter fun e ↦ decide (e.1 = a)).map Prod.snd

@[simp] theorem mem_targets_iff {edges : List (α × α)} {a b : α} :
    b ∈ targets edges a ↔ Edge edges a b := by
  rw [targets, List.mem_map]
  constructor
  · rintro ⟨⟨a', b'⟩, he, rfl⟩
    rw [List.mem_filter, decide_eq_true_eq] at he
    obtain ⟨he, rfl⟩ := he
    exact he
  · intro h
    exact ⟨(a, b), List.mem_filter.mpr ⟨h, decide_eq_true rfl⟩, rfl⟩

/-! ## The search -/

/-- The nodes in `seen` are done with, and those in `stack` are to be looked at, its head first. -/
def search (edges : List (α × α)) (target : α) : ℕ → List α → List α → Bool
  | 0, _, _ => false
  | _ + 1, _, [] => false
  | rounds + 1, seen, node :: stack =>
    if node ∈ seen then search edges target rounds seen stack
    else if target ∈ targets edges node then true
    else search edges target rounds (node :: seen) ((targets edges node).reverse ++ stack)

/-- Does a path of at least one edge lead from the first node to the second? -/
def reaches (edges : List (α × α)) (start target : α) : Bool :=
  search edges target (edges.length + 1) [] [start]

variable {edges : List (α × α)} {start target : α}

/-- What the search finds is there. -/
theorem transGen_of_search {rounds : ℕ} {seen stack : List α}
    (hstack : ∀ a ∈ stack, ReflTransGen (Edge edges) start a)
    (h : search edges target rounds seen stack = true) : TransGen (Edge edges) start target := by
  induction rounds generalizing seen stack with
  | zero => rw [search] at h; exact absurd h (by decide)
  | succ rounds ih =>
    rcases stack with - | ⟨node, stack⟩
    · rw [search] at h
      exact absurd h (by decide)
    · obtain ⟨hnode, hstack⟩ := List.forall_mem_cons.mp hstack
      rw [search] at h
      split_ifs at h with hseen htarget
      · exact ih hstack h
      · exact TransGen.tail' hnode (mem_targets_iff.mp htarget)
      · refine ih (fun a ha ↦ ?_) h
        rcases List.mem_append.mp ha with ha | ha
        · rw [List.mem_reverse, mem_targets_iff] at ha
          exact hnode.tail ha
        · exact hstack a ha

/-- The edges that leave a node not yet seen. -/
def unseen (edges : List (α × α)) (seen : List α) : ℕ :=
  edges.countP fun e ↦ decide (e.1 ∉ seen)

/-- Seeing a node takes away the edges that leave it. -/
theorem unseen_cons {seen : List α} {node : α} (hnode : node ∉ seen) :
    unseen edges (node :: seen) + (targets edges node).length = unseen edges seen := by
  rw [unseen, unseen, targets, List.length_map, ← List.countP_eq_length_filter]
  induction edges with
  | nil => rfl
  | cons e edges ih =>
    rw [List.countP_cons, List.countP_cons, List.countP_cons]
    simp only [decide_eq_true_eq]
    by_cases he : e.1 = node
    · have hseen : e.1 ∉ seen := by rwa [he]
      have hcons : ¬ e.1 ∉ node :: seen := by rw [not_not, he]; exact List.mem_cons_self
      rw [if_neg hcons, if_pos he, if_pos hseen]
      omega
    · have hiff : e.1 ∉ node :: seen ↔ e.1 ∉ seen := by
        rw [List.mem_cons, not_or]
        exact and_iff_right he
      rw [if_neg he, if_congr hiff rfl rfl]
      omega

/-- A search that finds nothing leaves a set of nodes that no edge leaves and none of whose edges
leads to the target. -/
theorem exists_closed_of_search {rounds : ℕ} {seen stack : List α}
    (hseen : ∀ a ∈ seen, ∀ b, Edge edges a b → (b ∈ seen ∨ b ∈ stack) ∧ b ≠ target)
    (hrounds : stack.length + unseen edges seen ≤ rounds)
    (h : search edges target rounds seen stack = false) :
    ∃ closed : List α, (∀ a ∈ stack, a ∈ closed) ∧
      ∀ a ∈ closed, ∀ b, Edge edges a b → b ∈ closed ∧ b ≠ target := by
  induction rounds generalizing seen stack with
  | zero =>
    have hnil : stack = [] := List.length_eq_zero_iff.mp (by omega)
    subst hnil
    refine ⟨seen, by simp, fun a ha b hb ↦ ?_⟩
    obtain ⟨hb', hne⟩ := hseen a ha b hb
    exact ⟨hb'.resolve_right (by simp), hne⟩
  | succ rounds ih =>
    rcases stack with - | ⟨node, stack⟩
    · refine ⟨seen, by simp, fun a ha b hb ↦ ?_⟩
      obtain ⟨hb', hne⟩ := hseen a ha b hb
      exact ⟨hb'.resolve_right (by simp), hne⟩
    · rw [List.length_cons] at hrounds
      rw [search] at h
      split_ifs at h with hnode htarget
      · have hseen' : ∀ a ∈ seen, ∀ b, Edge edges a b → (b ∈ seen ∨ b ∈ stack) ∧ b ≠ target := by
          intro a ha b hb
          obtain ⟨hb', hne⟩ := hseen a ha b hb
          refine ⟨hb'.elim .inl fun hb' ↦ ?_, hne⟩
          rcases List.mem_cons.mp hb' with rfl | hb'
          · exact .inl hnode
          · exact .inr hb'
        obtain ⟨closed, hstack, hclosed⟩ := ih hseen' (by omega) h
        refine ⟨seen ++ closed, fun a ha ↦ ?_, fun a ha b hb ↦ ?_⟩
        · rcases List.mem_cons.mp ha with rfl | ha
          · exact List.mem_append_left _ hnode
          · exact List.mem_append_right _ (hstack a ha)
        · rcases List.mem_append.mp ha with ha | ha
          · obtain ⟨hb', hne⟩ := hseen' a ha b hb
            exact ⟨List.mem_append.mpr (hb'.imp id (hstack b)), hne⟩
          · obtain ⟨hb', hne⟩ := hclosed a ha b hb
            exact ⟨List.mem_append_right _ hb', hne⟩
      · have hcount : unseen edges (node :: seen) + (targets edges node).length = unseen edges seen :=
          unseen_cons hnode
        have hseen' : ∀ a ∈ node :: seen, ∀ b, Edge edges a b →
            (b ∈ node :: seen ∨ b ∈ (targets edges node).reverse ++ stack) ∧ b ≠ target := by
          intro a ha b hb
          rcases List.mem_cons.mp ha with rfl | ha
          · refine ⟨.inr (List.mem_append_left _ ?_), ?_⟩
            · rwa [List.mem_reverse, mem_targets_iff]
            · rintro rfl
              exact htarget (mem_targets_iff.mpr hb)
          · obtain ⟨hb', hne⟩ := hseen a ha b hb
            refine ⟨?_, hne⟩
            rcases hb' with hb' | hb'
            · exact .inl (List.mem_cons_of_mem _ hb')
            · rcases List.mem_cons.mp hb' with rfl | hb'
              · exact .inl List.mem_cons_self
              · exact .inr (List.mem_append_right _ hb')
        have hlength : ((targets edges node).reverse ++ stack).length =
            (targets edges node).length + stack.length := by
          rw [List.length_append, List.length_reverse]
        obtain ⟨closed, hstack, hclosed⟩ := ih hseen' (by omega) h
        refine ⟨node :: seen ++ closed, fun a ha ↦ ?_, fun a ha b hb ↦ ?_⟩
        · rcases List.mem_cons.mp ha with rfl | ha
          · exact List.mem_cons_self
          · exact List.mem_append_right _ (hstack a (List.mem_append_right _ ha))
        · rcases List.mem_append.mp ha with ha | ha
          · obtain ⟨hb', hne⟩ := hseen' a ha b hb
            exact ⟨List.mem_append.mpr (hb'.imp id (hstack b)), hne⟩
          · obtain ⟨hb', hne⟩ := hclosed a ha b hb
            exact ⟨List.mem_append_right _ hb', hne⟩

/-- **The search is right.** It finds the target exactly when a path leads there. -/
theorem reaches_iff : reaches edges start target = true ↔ TransGen (Edge edges) start target := by
  constructor
  · intro h
    exact transGen_of_search (by simp [ReflTransGen.refl]) h
  · intro hpath
    by_contra h
    rw [Bool.not_eq_true] at h
    have hrounds : [start].length + unseen edges [] ≤ edges.length + 1 := by
      have hle : unseen edges [] ≤ edges.length := List.countP_le_length
      rw [List.length_singleton]
      omega
    obtain ⟨closed, hstart, hclosed⟩ := exists_closed_of_search (by simp) hrounds h
    have hmem : ∀ b, TransGen (Edge edges) start b → b ∈ closed ∧ b ≠ target := by
      intro b hb
      induction hb with
      | single hb => exact hclosed start (hstart start (by simp)) _ hb
      | tail _ hb ih => exact hclosed _ ih.1 _ hb
    exact (hmem target hpath).2 rfl

/-! ## Cycles -/

omit [DecidableEq α] in
/-- Where new edges lead into one node, a path either takes none of them, or it comes to the source
of the first and goes on from the node after the last. -/
theorem transGen_link {r : α → α → Prop} {sources : α → Prop} {b x y : α}
    (h : TransGen (fun c d ↦ r c d ∨ d = b ∧ sources c) x y) :
    TransGen r x y ∨ (∃ c, sources c ∧ ReflTransGen r x c) ∧ ReflTransGen r b y := by
  induction h with
  | single he =>
    rcases he with he | ⟨rfl, he⟩
    · exact .inl (.single he)
    · exact .inr ⟨⟨x, he, .refl⟩, .refl⟩
  | tail _ he ih =>
    rcases he with he | ⟨rfl, he⟩
    · exact ih.imp (·.tail he) fun ⟨hfirst, hlast⟩ ↦ ⟨hfirst, hlast.tail he⟩
    · refine .inr ⟨?_, .refl⟩
      rcases ih with ih | ⟨hfirst, -⟩
      · exact ⟨_, he, ih.to_reflTransGen⟩
      · exact hfirst

omit [DecidableEq α] in
/-- **Edges into one node close no cycle** as long as the node is none of their sources and leads to
none of them. -/
theorem acyclic_link {r : α → α → Prop} {sources : α → Prop} {b : α}
    (hr : ∀ a, ¬ TransGen r a a) (hsources : ∀ c, sources c → c ≠ b ∧ ¬ TransGen r b c) (a : α) :
    ¬ TransGen (fun c d ↦ r c d ∨ d = b ∧ sources c) a a := by
  intro ha
  rcases transGen_link ha with ha | ⟨⟨c, hc, hfirst⟩, hlast⟩
  · exact hr a ha
  · rcases reflTransGen_iff_eq_or_transGen.mp (hlast.trans hfirst) with heq | hpath
    · exact (hsources c hc).1 heq
    · exact (hsources c hc).2 hpath

end EdgeList
