import QwenHarness.Runtime.Drive

/-!
# What the tools of a round leave

An argument about the calls of a round is about a few steps only: what is said to the model, the
beginning of a side effect and its settlement. All the rest records what does not matter to it. So a
frame that has room for these steps, and for whatever records nothing of them, has room for the
calls of a whole round, on the serial path and in a batch.
-/

namespace QwenHarness

open Effect

/-- Kinds that say nothing, ask the model and the guard nothing, and settle nothing. -/
def Quiet (ks : List Kind) : Prop :=
  .said ∉ ks ∧ .adopted ∉ ks ∧ .stream ∉ ks ∧ .guard ∉ ks ∧ .settled ∉ ks

instance (ks : List Kind) : Decidable (Quiet ks) :=
  inferInstanceAs (Decidable (_ ∧ _ ∧ _ ∧ _ ∧ _))

namespace TurnEngine

variable {σ : Type} {deps : TurnEngineDeps σ} {base : PersistBase} {call : NormalizedToolCall}
  {F : Frame (World σ)}

/-- A frame with room for the steps that matter to it. -/
structure ToolFrame (deps : TurnEngineDeps σ) (base : PersistBase) (F : Frame (World σ)) :
    Prop where
  quiet : ∀ {α : Type} {k : List Kind} {m : Engine σ α}, Footprint deps k m → Quiet k → Within F m
  say : ∀ items, Within F (say items)
  begins : ∀ call, Within F (beginSideEffect deps base call)
  settles : ∀ sideEffectId result, Within F (settle deps base sideEffectId result)

section

variable (hF : ToolFrame deps base F)

include hF

/-! ## One call -/

theorem within_preToolUse : Within F (preToolUse deps base call) := by
  rw [preToolUse]
  cases hhooks : deps.hooks with
  | none => exact .pure _
  | some hooks =>
    refine .bind (hF.quiet (k := [.hookGate]) (footprint_ask (fun _ ↦ ⟨hooks, hhooks, rfl⟩)
      fun _ ↦ List.mem_of_elem_eq_true rfl) (by decide)) fun gate ↦ ?_
    refine .bind (hF.quiet (footprint_persist .hookFired rfl (List.mem_singleton_self _))
      (by decide)) fun _ ↦ ?_
    split
    · exact .bind (hF.say _) fun _ ↦ .pure _
    · exact .pure _

theorem within_askApproval {verdict : ToolEvaluation} :
    Within F (askApproval deps base call verdict) := by
  rw [askApproval]
  refine .bind (hF.quiet (footprint_moveMachine (List.mem_singleton_self _))
    (by decide)) fun _ ↦ ?_
  refine .bind (hF.quiet (footprint_persistState (List.mem_singleton_self _))
    (by decide)) fun _ ↦ ?_
  refine .bind (hF.quiet (footprint_persist .approvalRequested rfl
    (List.mem_singleton_self _)) (by decide)) fun _ ↦ ?_
  refine .bind (hF.quiet (footprint_fireLifecycle (List.mem_singleton_self _))
    (by decide)) fun _ ↦ ?_
  refine .bind (hF.quiet (footprint_requestApproval (List.mem_singleton_self _))
    (by decide)) fun decision ↦ ?_
  refine .bind (hF.quiet (footprint_signalAborted (List.mem_singleton_self _))
    (by decide)) fun aborted ↦ ?_
  split
  · exact .pure _
  · cases decision with
    | deferred reason => exact .pure _
    | approved scope =>
      exact .bind (hF.quiet footprint_resolveApproval (by decide)) fun _ ↦ .pure _
    | denied reason =>
      refine .bind (hF.quiet footprint_resolveApproval (by decide)) fun _ ↦ ?_
      refine .bind (hF.quiet (footprint_recordToolDenial (List.mem_singleton_self _))
        (by decide)) fun _ ↦ ?_
      exact .bind (hF.say _) fun _ ↦ .pure _

theorem within_passGates : Within F (passGates deps base call) := by
  rw [passGates]
  refine .bind (within_preToolUse hF) fun blocked ↦ ?_
  split
  · exact .pure _
  · rw [judge]
    refine .bind (hF.quiet (footprint_evaluate (List.mem_singleton_self _))
      (by decide)) fun verdict ↦ ?_
    refine .bind (hF.quiet (footprint_persistVerdict (List.mem_singleton_self _))
      (by decide)) fun _ ↦ ?_
    split
    · refine .bind (hF.quiet (footprint_recordToolDenial (List.mem_singleton_self _))
        (by decide)) fun _ ↦ ?_
      refine .bind (hF.quiet (footprint_fireLifecycle (List.mem_singleton_self _))
        (by decide)) fun _ ↦ ?_
      exact .bind (hF.say _) fun _ ↦ .pure _
    · exact within_askApproval hF
    · exact .pure _

theorem within_recordResult {result : ToolExecutionResult} :
    Within F (recordResult deps base call result) := by
  rw [recordResult]
  refine .bind (hF.quiet footprint_postToolUse (by decide)) fun stop ↦ ?_
  refine .bind (hF.quiet (footprint_persistItem .resultItem rfl
    (List.mem_singleton_self _)) (by decide)) fun _ ↦ ?_
  exact .bind (hF.say _) fun _ ↦ .pure _

theorem within_runOneCall : Within F (runOneCall deps base call) := by
  rw [runOneCall]
  refine .bind (hF.quiet (footprint_note (fun _ ↦ rfl)
    (List.mem_singleton_self Kind.takeUp)) (by decide)) fun _ ↦ ?_
  refine .bind (hF.quiet footprint_takeUp (by decide)) fun phase ↦ ?_
  split
  · exact .pure _
  · refine .bind (within_passGates hF) fun admission ↦ ?_
    split
    · exact .pure _
    · exact .pure _
    · refine .bind (hF.begins _) fun begun ↦ ?_
      split
      · exact .pure _
      · refine .bind (hF.quiet (footprint_execute (List.mem_singleton_self _))
          (by decide)) fun result ↦ ?_
        refine .bind (hF.settles _ _) fun _ ↦ ?_
        refine .bind (within_recordResult hF) fun stop ↦ ?_
        exact hF.quiet (footprint_afterResults (List.mem_singleton_self _)) (by decide)

/-! ## The calls of a round -/

theorem within_runSerially (calls : List NormalizedToolCall) :
    Within F (runSerially deps base calls) := by
  induction calls with
  | nil => exact .pure _
  | cons call calls ih =>
    rw [runSerially]
    refine .bind (within_runOneCall hF) fun phase ↦ ?_
    split
    · exact ih
    · exact .pure _

theorem within_startBatch (items : List (NormalizedToolCall × ToolEvaluation)) :
    Within F (startBatch deps base items) := by
  induction items with
  | nil => exact .pure _
  | cons item items ih =>
    rw [startBatch]
    refine .bind (hF.quiet footprint_takeUp (by decide)) fun phase ↦ ?_
    split
    · exact .pure _
    · refine .bind (within_preToolUse hF) fun blocked ↦ ?_
      split
      · exact ih
      · refine .bind (hF.quiet (footprint_persistVerdict (List.mem_singleton_self _))
          (by decide)) fun _ ↦ ?_
        refine .bind (hF.begins _) fun begun ↦ ?_
        split
        · exact ih
        · refine .bind ih fun started ↦ ?_
          split
          · exact .pure _
          · exact .pure _

theorem within_settleBatch
    (items : List ((NormalizedToolCall × String) × ToolExecutionResult)) :
    Within F (settleBatch deps base items) := by
  induction items with
  | nil => exact .pure _
  | cons item items ih =>
    rw [settleBatch]
    refine .bind (hF.settles _ _) fun _ ↦ ?_
    exact .bind (within_recordResult hF) fun stop ↦ .bind ih fun stops ↦ .pure _

theorem within_runParallelBatch (calls : List NormalizedToolCall) :
    Within F (runParallelBatch deps base calls) := by
  rw [runParallelBatch]
  refine .bind (hF.quiet (footprint_note (fun _ ↦ rfl)
    (List.mem_singleton_self Kind.takeUpBatch)) (by decide)) fun _ ↦ ?_
  refine .bind (hF.quiet (footprint_evaluateAll calls) (by decide)) fun verdicts ↦ ?_
  split
  · refine .bind (within_startBatch hF _) fun started ↦ ?_
    split
    · exact .pure _
    · refine .bind (hF.quiet (footprint_executeAll _) (by decide)) fun results ↦ ?_
      refine .bind (within_settleBatch hF _) fun stop ↦ ?_
      exact hF.quiet (footprint_afterResults (List.mem_singleton_self _)) (by decide)
  · exact within_runSerially hF calls

theorem within_runGroups (calls : List NormalizedToolCall) (groups : List (List String)) :
    Within F (runGroups deps base calls groups) := by
  have hgroup (calls : List NormalizedToolCall) :
      Within F (runGroup deps base calls) := by
    rw [runGroup.eq_def]
    split
    · exact .pure _
    · exact within_runOneCall hF
    · exact within_runParallelBatch hF _
  induction groups with
  | nil => exact .pure _
  | cons group groups ih =>
    rw [runGroups]
    refine .bind (hgroup _) fun phase ↦ ?_
    split
    · exact ih
    · exact .pure _

theorem within_toolPhase (calls : List NormalizedToolCall) :
    Within F (toolPhase deps base calls) := by
  rw [toolPhase]
  split
  · exact .pure _
  · refine .bind (hF.quiet (footprint_transitionUnless (List.mem_singleton_self _))
      (by decide)) fun _ ↦ ?_
    refine .bind (hF.quiet (footprint_persistState (List.mem_singleton_self _))
      (by decide)) fun _ ↦ ?_
    rw [runToolCalls, bind_assoc]
    refine .bind (hF.quiet (footprint_planBatches (List.mem_singleton_self _))
      (by decide)) fun groups ↦ ?_
    refine .bind (within_runGroups hF calls groups) fun phase ↦ ?_
    refine .bind (hF.quiet (footprint_fireLifecycle (List.mem_singleton_self _))
      (by decide)) fun _ ↦ ?_
    exact hF.quiet footprint_concludePhase (by decide)

end

end TurnEngine

end QwenHarness
