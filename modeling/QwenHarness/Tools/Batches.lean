import QwenHarness.Effect.Access
import QwenHarness.Tools.Executors

/-!
# Batches of tool calls

The calls of one model output are cut, in their order, into batches. The calls of a batch may run
side by side: they are safe, and none writes what another touches. A call that is not safe has a
batch to itself. Whatever the order within the batches, the calls answer and leave what they would
one after the other.
-/

namespace QwenHarness.Tools

open Access (Action Independent Same Within)

structure ResourceFootprint where
  reads : List String
  writes : List String
  /-- The call is not confined to what it declares. -/
  unbounded : Bool
deriving DecidableEq, Repr

structure PlannedCall where
  callId : String
  toolName : String
  annotations : ToolAnnotations
  footprint : ResourceFootprint
deriving DecidableEq, Repr

inductive BatchKind where
  | parallel
  | serial
deriving DecidableEq, Repr

structure Batch where
  kind : BatchKind
  calls : List PlannedCall
deriving DecidableEq, Repr

/-- Two calls conflict if one writes what the other touches, or one is unbounded. -/
def conflicts (a b : PlannedCall) : Bool :=
  a.footprint.unbounded || b.footprint.unbounded ||
    a.footprint.writes.any (fun w ↦ b.footprint.writes.contains w) ||
    a.footprint.reads.any (fun r ↦ b.footprint.writes.contains r) ||
    b.footprint.reads.any (fun r ↦ a.footprint.writes.contains r)

/-- Only such a call may share a batch. -/
def isSafeParallel (call : PlannedCall) : Bool :=
  call.annotations.readOnly && !call.annotations.destructive && !call.footprint.unbounded

/-! ## Planning -/

/-- The batches that are closed, and the calls of the open one. -/
structure Planning where
  batches : List Batch
  current : List PlannedCall
deriving DecidableEq, Repr

/-- The kind of a batch that is closed. -/
def flushKind : List PlannedCall → BatchKind
  | [call] => if isSafeParallel call then .parallel else .serial
  | _ => .parallel

def Planning.flush (p : Planning) : Planning :=
  if p.current = [] then p
  else ⟨p.batches ++ [⟨flushKind p.current, p.current⟩], []⟩

/-- Place one call. -/
def Planning.place (maxParallel : ℕ) (p : Planning) (call : PlannedCall) : Planning :=
  if isSafeParallel call then
    let p :=
      if p.current.any (fun existing ↦ conflicts existing call) ∨
        maxParallel ≤ p.current.length then p.flush
      else p
    { p with current := p.current ++ [call] }
  else { p.flush with batches := p.flush.batches ++ [⟨.serial, [call]⟩] }

def planBatches (calls : List PlannedCall) (maxParallel : ℕ) : List Batch :=
  (calls.foldl (Planning.place maxParallel) ⟨[], []⟩).flush.batches

/-! ## What a plan keeps -/

/-- Calls that may run side by side, not too many of them. -/
structure Compatible (maxParallel : ℕ) (calls : List PlannedCall) : Prop where
  length : calls.length ≤ maxParallel
  apart : calls.Pairwise fun a b ↦ conflicts a b = false

/-- The calls that were placed, in their order, in batches of calls that are compatible. -/
structure Planned (maxParallel : ℕ) (calls : List PlannedCall) (p : Planning) : Prop where
  order : (p.batches.map Batch.calls).flatten ++ p.current = calls
  batches : ∀ b ∈ p.batches, Compatible maxParallel b.calls
  current : Compatible maxParallel p.current

section Plan

variable {maxParallel : ℕ} {calls : List PlannedCall} {p : Planning} {call : PlannedCall}

theorem compatible_nil : Compatible maxParallel [] := ⟨Nat.zero_le _, .nil⟩

theorem compatible_singleton (hmax : 1 ≤ maxParallel) : Compatible maxParallel [call] :=
  ⟨hmax, List.pairwise_singleton _ _⟩

theorem Planned.flush (h : Planned maxParallel calls p) :
    Planned maxParallel calls p.flush ∧ p.flush.current = [] := by
  rw [Planning.flush]
  by_cases hnil : p.current = []
  · rw [if_pos hnil]
    exact ⟨h, hnil⟩
  · rw [if_neg hnil]
    refine ⟨⟨?_, ?_, compatible_nil⟩, rfl⟩
    · rw [← h.order, List.map_append, List.flatten_append, List.append_nil]
      exact congrArg _ (List.append_nil _)
    · exact List.forall_mem_append.mpr ⟨h.batches, List.forall_mem_singleton.mpr h.current⟩

/-- A call joins the open batch. -/
theorem Planned.join (h : Planned maxParallel calls p)
    (hfree : ∀ existing ∈ p.current, conflicts existing call = false)
    (hlength : p.current.length < maxParallel) :
    Planned maxParallel (calls ++ [call]) { p with current := p.current ++ [call] } where
  order := by rw [← h.order, List.append_assoc]
  batches := h.batches
  current :=
    { length := by
        rw [List.length_append]
        exact hlength
      apart := by
        refine List.pairwise_append.mpr ⟨h.current.apart, List.pairwise_singleton _ _, ?_⟩
        intro existing hexisting c hc
        rw [List.mem_singleton.mp hc]
        exact hfree existing hexisting }

/-- **Placing a call.** -/
theorem Planned.place (hmax : 1 ≤ maxParallel) (h : Planned maxParallel calls p)
    (call : PlannedCall) : Planned maxParallel (calls ++ [call]) (p.place maxParallel call) := by
  obtain ⟨hflush, hnil⟩ := h.flush
  rw [Planning.place]
  by_cases hsafe : isSafeParallel call = true
  · rw [if_pos hsafe]
    dsimp only
    by_cases hclose : (p.current.any fun existing ↦ conflicts existing call) = true ∨
        maxParallel ≤ p.current.length
    · rw [if_pos hclose]
      refine hflush.join (fun existing hexisting ↦ ?_) ?_
      · rw [hnil] at hexisting
        cases hexisting
      · rw [hnil]
        exact hmax
    · rw [if_neg hclose]
      rw [not_or, Bool.not_eq_true, List.any_eq_false, not_le] at hclose
      exact h.join (fun existing hexisting ↦ Bool.eq_false_iff.mpr (hclose.1 existing hexisting))
        hclose.2
  · rw [if_neg hsafe]
    refine ⟨?_, ?_, hflush.current⟩
    · have horder := hflush.order
      rw [hnil, List.append_nil] at horder
      simp only [hnil, List.map_append, List.map_singleton, List.flatten_append, horder,
        List.flatten_singleton, List.append_nil]
    · exact List.forall_mem_append.mpr
        ⟨hflush.batches, List.forall_mem_singleton.mpr (compatible_singleton hmax)⟩

/-- **The plan.** -/
theorem planned_foldl (hmax : 1 ≤ maxParallel) {placed : List PlannedCall}
    (h : Planned maxParallel placed p) :
    Planned maxParallel (placed ++ calls) (calls.foldl (Planning.place maxParallel) p) := by
  induction calls generalizing placed p with
  | nil =>
    rw [List.append_nil]
    exact h
  | cons call calls ih =>
    rw [List.append_cons]
    exact ih (h.place hmax call)

theorem planned_planBatches (hmax : 1 ≤ maxParallel) (calls : List PlannedCall) :
    ((planBatches calls maxParallel).map Batch.calls).flatten = calls ∧
      ∀ b ∈ planBatches calls maxParallel, Compatible maxParallel b.calls := by
  have hstart : Planned maxParallel [] ⟨[], []⟩ :=
    ⟨rfl, fun b hb ↦ absurd hb List.not_mem_nil, compatible_nil⟩
  have hplanned : Planned maxParallel ([] ++ calls)
      (calls.foldl (Planning.place maxParallel) ⟨[], []⟩) := planned_foldl hmax hstart
  obtain ⟨h, hnil⟩ := hplanned.flush
  have horder := h.order
  rw [hnil, List.append_nil, List.nil_append] at horder
  exact ⟨horder, h.batches⟩

end Plan

/-! ## What the calls do -/

section Execute

variable {ν ρ : Type} {act : PlannedCall → Action String ν ρ}

/-- A call that is bounded reads and writes only what it declares. -/
def Declared (act : PlannedCall → Action String ν ρ) : Prop :=
  ∀ c, c.footprint.unbounded = false →
    Within (act c) {p | p ∈ c.footprint.reads} {p | p ∈ c.footprint.writes}

theorem conflicts_eq_false_iff {a b : PlannedCall} :
    conflicts a b = false ↔ a.footprint.unbounded = false ∧ b.footprint.unbounded = false ∧
      (∀ w ∈ a.footprint.writes, w ∉ b.footprint.writes) ∧
      (∀ r ∈ a.footprint.reads, r ∉ b.footprint.writes) ∧
      ∀ r ∈ b.footprint.reads, r ∉ a.footprint.writes := by
  simp only [conflicts, Bool.or_eq_false_iff, List.any_eq_false, List.contains_iff_mem, and_assoc]

/-- Calls that do not conflict do not see each other. -/
theorem independent_of_not_conflicts (hact : Declared act) {a b : PlannedCall}
    (h : conflicts a b = false) : Independent (act a) (act b) := by
  obtain ⟨ha, hb, hW, hR, hR'⟩ := conflicts_eq_false_iff.mp h
  exact (hact a ha).independent (hact b hb) hR hR' hW

/-- **Batches.** The batches are the calls in their order, none is longer than allowed. However the
calls of each batch are ordered, the run leaves the same store as the calls one by one, and each
call has the same answer. -/
theorem planBatches_same {maxParallel : ℕ} (hmax : 1 ≤ maxParallel) (calls : List PlannedCall) :
    ((planBatches calls maxParallel).map Batch.calls).flatten = calls ∧
      (∀ b ∈ planBatches calls maxParallel, b.calls.length ≤ maxParallel) ∧
      ∀ (ν ρ : Type) (act : PlannedCall → Action String ν ρ), Declared act →
        ∀ orders,
          List.Forall₂ List.Perm orders ((planBatches calls maxParallel).map Batch.calls) →
          ∀ s, Same (Access.run act orders.flatten s) (Access.run act calls s) := by
  obtain ⟨horder, hbatches⟩ := planned_planBatches hmax calls
  refine ⟨horder, fun b hb ↦ (hbatches b hb).length, fun ν ρ act hact orders horders s ↦ ?_⟩
  have happart : ∀ block ∈ (planBatches calls maxParallel).map Batch.calls,
      block.Pairwise fun c d ↦ Independent (act c) (act d) := by
    intro block hblock
    obtain ⟨b, hb, rfl⟩ := List.mem_map.mp hblock
    exact (hbatches b hb).apart.imp fun h ↦ independent_of_not_conflicts hact h
  have hsame := Access.run_flatten horders happart s
  rwa [horder] at hsame

/-- A call that is safe if it writes nothing. -/
def callOn (callId : String) (reads writes : List String) : PlannedCall :=
  ⟨callId, "tool", ⟨writes.isEmpty, !writes.isEmpty, true, false⟩, ⟨reads, writes, false⟩⟩

def twoReadsAndAWrite : List PlannedCall :=
  [callOn "call_1" ["/a"] [], callOn "call_2" ["/b"] [], callOn "call_3" ["/a"] ["/b"]]

/-- A call answers what it reads, and writes the successor of the first of it. -/
def copying (c : PlannedCall) : Action String ℕ (List ℕ) := fun s ↦
  (c.footprint.reads.map s, fun p ↦
    if c.footprint.writes.contains p then some ((c.footprint.reads.map s).headD 0 + 1) else none)

theorem declared_copying : Declared copying := by
  intro c _
  constructor
  · intro s s' h
    have hreads : c.footprint.reads.map s = c.footprint.reads.map s' :=
      List.map_congr_left fun p hp ↦ h p hp
    rw [copying, copying, hreads]
  · intro s p hp
    refine if_neg fun hmem ↦ hp ?_
    exact List.contains_iff_mem.mp hmem

/-- The two reads of the first batch, the other way round. -/
theorem planBatches_same_twoReadsAndAWrite :
    Same (Access.run copying [callOn "call_2" ["/b"] [], callOn "call_1" ["/a"] [],
        callOn "call_3" ["/a"] ["/b"]] fun _ ↦ 0)
      (Access.run copying twoReadsAndAWrite fun _ ↦ 0) := by
  have hplan : (planBatches twoReadsAndAWrite 8).map Batch.calls =
      [[callOn "call_1" ["/a"] [], callOn "call_2" ["/b"] []],
        [callOn "call_3" ["/a"] ["/b"]]] := by
    decide
  refine (planBatches_same (by decide : 1 ≤ 8) twoReadsAndAWrite).2.2 ℕ (List ℕ) copying
    declared_copying [[callOn "call_2" ["/b"] [], callOn "call_1" ["/a"] []],
      [callOn "call_3" ["/a"] ["/b"]]] ?_ fun _ ↦ 0
  rw [hplan]
  exact .cons (.swap _ _ _) (.cons (.refl _) .nil)

end Execute

end QwenHarness.Tools
