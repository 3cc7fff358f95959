import QwenHarness.Context.Answered
import QwenHarness.Runtime.Bounds

/-!
# What the requests of a turn contain

A provider refuses a conversation in which a call has no result or a result no call. Results are
said in many places: a hook blocks the call, policy or the user refuses it, the guard skips it, or
it was executed; and on two paths. But a call that is taken up gets its result before the next one,
or else the turn stops there, and no request is made any more. So in a turn whose conversation
nobody rewrites, whenever a request goes out every call has been answered.
-/

namespace QwenHarness

open Effect Context

/-! ## The requests -/

/-- What is asked of the outside: the calls of a round have ids of their own, and a plan puts each
call of the round into one group. -/
def Obs.Orderly : Obs → Prop
  | .stream request (.ok events) =>
    let ids := (normalizeRound events).toolCalls.map NormalizedToolCall.callId
    ids.Nodup ∧ ∀ id ∈ ids, id ∉ callIds request.input
  | .planBatches calls (.ok groups) =>
    groups.flatten.Perm (calls.map NormalizedToolCall.callId)
  | _ => True

instance : DecidablePred Obs.Orderly := fun o ↦ by
  unfold Obs.Orderly
  split <;> infer_instance

def Orderly (obs : List Obs) : Prop := ∀ o ∈ obs, o.Orderly

instance : DecidablePred Orderly := fun obs ↦
  inferInstanceAs (Decidable (∀ o ∈ obs, o.Orderly))

/-- In every request all calls are answered. -/
def RequestsAnswered (obs : List Obs) : Prop :=
  ∀ request answer, .stream request answer ∈ obs → Context.Answered request.input

section Records

variable {obs seg : List Obs}

theorem Orderly.of_append (h : Orderly (obs ++ seg)) : Orderly obs :=
  fun o ho ↦ h o (List.mem_append_left _ ho)

theorem requestsAnswered_append (h : RequestsAnswered obs) (hseg : ∀ o ∈ seg, o.kind ≠ .stream) :
    RequestsAnswered (obs ++ seg) := by
  intro request answer hmem
  rcases List.mem_append.mp hmem with hmem | hmem
  · exact h request answer hmem
  · exact absurd rfl (hseg _ hmem)

end Records

namespace TurnEngine

variable {σ α : Type} {deps : TurnEngineDeps σ} {base : PersistBase} {w w' : World σ}
  {ks : List Kind} {pending pending' rest : List String} {call : NormalizedToolCall}

/-! ## What is owed -/

/-- The requests so far were answered in full. -/
def Sent (w : World σ) : Prop := Orderly w.obs → RequestsAnswered w.obs

/-- And the calls with these ids are owed their results. -/
def Owing (pending : List String) (w : World σ) : Prop :=
  Orderly w.obs → RequestsAnswered w.obs ∧ Owes pending w.turn.conversation

theorem Owing.sent (h : Owing pending w) : Sent w := fun ho ↦ (h ho).1

theorem Owing.perm (h : Owing pending w) (hperm : pending.Perm pending') : Owing pending' w :=
  fun ho ↦ ⟨(h ho).1, (h ho).2.perm hperm⟩

theorem Sent.leaves {s : List Kind} (h : Sent w) (hks : .stream ∉ s) (hl : Leaves deps s w w') :
    Sent w' := by
  obtain ⟨seg, hobs, hkinds⟩ := hl.obs
  intro ho
  rw [hobs] at ho ⊢
  exact requestsAnswered_append (h ho.of_append) fun o hmem heq ↦ hks (heq ▸ hkinds o hmem)

theorem Owing.leaves {s : List Kind} (h : Owing pending w)
    (hks : .stream ∉ s ∧ .said ∉ s ∧ .adopted ∉ s) (hl : Leaves deps s w w') :
    Owing pending w' := by
  intro ho
  refine ⟨Sent.leaves h.sent hks.1 hl ho, ?_⟩
  obtain ⟨seg, hobs, -⟩ := hl.obs
  rw [hl.conversation hks.2.1 hks.2.2]
  exact (h (hobs ▸ ho).of_append).2

theorem sent_footprint {d : TurnEngineDeps σ} {s : List Kind} {m : Engine σ α}
    (hm : Footprint d s m) (hks : .stream ∉ s) : Triple Sent m (fun _ ↦ Sent) fun _ ↦ Sent :=
  hm.keeps fun hl h ↦ Sent.leaves h hks hl

theorem keeps_owing {m : Engine σ α} (hm : Footprint deps ks m)
    (hks : .stream ∉ ks ∧ .said ∉ ks ∧ .adopted ∉ ks) : Keeps (Owing pending) m :=
  hm.keeps fun hl h ↦ Owing.leaves h hks hl

theorem owing_footprint {d : TurnEngineDeps σ} {s : List Kind} {m : Engine σ α}
    (hm : Footprint d s m) (hks : .stream ∉ s ∧ .said ∉ s ∧ .adopted ∉ s) :
    Triple (Owing pending) m (fun _ ↦ Owing pending) fun _ ↦ Sent :=
  Triple.conseq (keeps_owing hm hks) (fun _ h ↦ h) (fun _ _ h ↦ h) fun _ _ h ↦ h.sent

/-- The conversation grows. -/
theorem said_rule {items : List ModelInputItem} {C : List ModelInputItem → Prop}
    {p : World σ → Prop} {r : Thrown → World σ → Prop} (h : ∀ w, p w → Orderly w.obs →
      RequestsAnswered w.obs ∧ C (w.turn.conversation ++ items)) :
    Triple p (say items)
      (fun _ w ↦ Orderly w.obs → RequestsAnswered w.obs ∧ C w.turn.conversation) r := by
  intro w hw ho
  have hobs : World.obs { w.record (.said items) with
      turn := { w.turn with conversation := w.turn.conversation ++ items } } =
      w.obs ++ [.said items] := World.obs_record w _
  rw [hobs] at ho ⊢
  obtain ⟨hsent, hconversation⟩ := h w hw ho.of_append
  refine ⟨requestsAnswered_append hsent fun o hmem ↦ ?_, hconversation⟩
  rw [List.mem_singleton.mp hmem]
  rintro ⟨⟩

theorem owing_say {items : List ModelInputItem} {r : Thrown → World σ → Prop}
    (h : ∀ conversation, Owes pending conversation → Owes pending' (conversation ++ items)) :
    Triple (Owing (σ := σ) pending) (say items) (fun _ ↦ Owing pending') r :=
  said_rule fun _ hw ho ↦ (hw ho).imp_right (h _)

/-- **A result is said** that was owed. -/
theorem owing_sayOutput {output : String} {r : Thrown → World σ → Prop} :
    Triple (Owing (σ := σ) (call.callId :: rest)) (sayOutput call output) (fun _ ↦ Owing rest) r :=
  owing_say fun _ h ↦ h.answer

/-! ## One call -/

/-- The turn stops. -/
def Stopped : ToolPhase → World σ → Prop := Concluded (fun _ ↦ False) Sent

theorem Stopped.concluded {Q : World σ → Prop} {phase : ToolPhase} (h : Stopped phase w) :
    Concluded Q Sent phase w := by
  cases phase with
  | go => exact h.elim
  | _ => exact h

/-- What taking a call up leaves. -/
def Taken (pending : List String) : Option ToolPhase → World σ → Prop
  | some phase => Stopped phase
  | none => Owing pending

theorem taken_takeUp :
    Triple (Owing pending) (takeUp deps call) (Taken pending) fun _ ↦ Sent := by
  have hstop : ∀ reason, Triple (Owing pending) (do
      note (σ := σ) (.budgetStop reason)
      pure (some (ToolPhase.budget reason))) (Taken pending) fun _ ↦ Sent := fun reason ↦
    .bind (owing_footprint (d := deps) (footprint_note (fun _ ↦ rfl)
      (List.mem_singleton_self Kind.budgetStop)) (by decide)) fun _ ↦ .pure fun _ h ↦ h.sent
  rw [takeUp]
  refine .bind (owing_footprint (footprint_signalAborted (List.mem_singleton_self _))
    (by decide)) fun aborted ↦ ?_
  split
  · exact .pure fun _ h ↦ h.sent
  · refine .bind (owing_footprint (d := deps) (s := [.toolCall]) (footprint_useBudget
      (.inr fun b ↦ b.modelCalls_beforeToolCall) (.inl (List.mem_singleton_self _)))
      (by decide)) fun verdict ↦ ?_
    cases verdict with
    | some reason => exact hstop reason
    | none =>
      refine .bind (owing_footprint (d := deps) (s := []) (footprint_useBudget
        (.inr fun b ↦ b.modelCalls_observeToolCall) (.inr fun b ↦ b.toolCalls_observeToolCall))
        (by decide)) fun verdict ↦ ?_
      cases verdict with
      | some reason => exact hstop reason
      | none => exact .pure fun _ h ↦ h

theorem owing_preToolUse :
    Triple (Owing (call.callId :: rest)) (preToolUse deps base call)
      (fun blocked ↦ Owing (if blocked then rest else call.callId :: rest)) fun _ ↦ Sent := by
  rw [preToolUse]
  cases hhooks : deps.hooks with
  | none => exact .pure fun _ h ↦ h
  | some hooks =>
    refine .bind (owing_footprint (s := [.hookGate]) (footprint_ask (fun _ ↦ ⟨hooks, hhooks, rfl⟩)
      fun _ ↦ List.mem_of_elem_eq_true rfl) (by decide)) fun gate ↦ ?_
    refine .bind (owing_footprint (footprint_persist .hookFired rfl (List.mem_singleton_self _))
      (by decide)) fun _ ↦ ?_
    split
    · exact .bind owing_sayOutput fun _ ↦ .pure fun _ h ↦ h
    · exact .pure fun _ h ↦ h

/-- What the gates leave: a refused call has its result, an admitted one is still owed it. -/
def Gated (id : String) (rest : List String) : Admission → World σ → Prop
  | .stop phase => Stopped phase
  | .refused => Owing rest
  | .admitted => Owing (id :: rest)

theorem owing_resolveApproval {granted : Bool} {scope : Option ApprovalScope} :
    Triple (Owing pending) (resolveApproval deps base call granted scope) (fun _ ↦ Owing pending)
      fun _ ↦ Sent :=
  owing_footprint footprint_resolveApproval (by decide)

theorem gated_askApproval {verdict : ToolEvaluation} :
    Triple (Owing (call.callId :: rest)) (askApproval deps base call verdict)
      (Gated call.callId rest) fun _ ↦ Sent := by
  rw [askApproval]
  refine .bind (owing_footprint (d := deps) (footprint_moveMachine (List.mem_singleton_self _))
    (by decide)) fun _ ↦ ?_
  refine .bind (owing_footprint (footprint_persistState (List.mem_singleton_self _))
    (by decide)) fun _ ↦ ?_
  refine .bind (owing_footprint (footprint_persist .approvalRequested rfl
    (List.mem_singleton_self _)) (by decide)) fun _ ↦ ?_
  refine .bind (owing_footprint (footprint_fireLifecycle (List.mem_singleton_self _))
    (by decide)) fun _ ↦ ?_
  refine .bind (owing_footprint (footprint_requestApproval (List.mem_singleton_self _))
    (by decide)) fun decision ↦ ?_
  refine .bind (owing_footprint (footprint_signalAborted (List.mem_singleton_self _))
    (by decide)) fun aborted ↦ ?_
  split
  · exact .pure fun _ h ↦ h.sent
  · cases decision with
    | deferred reason => exact .pure fun _ h ↦ h.sent
    | approved scope => exact .bind owing_resolveApproval fun _ ↦ .pure fun _ h ↦ h
    | denied reason =>
      refine .bind owing_resolveApproval fun _ ↦ ?_
      refine .bind (owing_footprint (footprint_recordToolDenial (List.mem_singleton_self _))
        (by decide)) fun _ ↦ ?_
      exact .bind owing_sayOutput fun _ ↦ .pure fun _ h ↦ h

theorem gated_judge :
    Triple (Owing (call.callId :: rest)) (judge deps base call) (Gated call.callId rest)
      fun _ ↦ Sent := by
  rw [judge]
  refine .bind (owing_footprint (footprint_evaluate (List.mem_singleton_self _))
    (by decide)) fun verdict ↦ ?_
  refine .bind (owing_footprint (footprint_persistVerdict (List.mem_singleton_self _))
    (by decide)) fun _ ↦ ?_
  split
  · refine .bind (owing_footprint (footprint_recordToolDenial (List.mem_singleton_self _))
      (by decide)) fun _ ↦ ?_
    refine .bind (owing_footprint (footprint_fireLifecycle (List.mem_singleton_self _))
      (by decide)) fun _ ↦ ?_
    exact .bind owing_sayOutput fun _ ↦ .pure fun _ h ↦ h
  · exact gated_askApproval
  · exact .pure fun _ h ↦ h

theorem gated_passGates :
    Triple (Owing (call.callId :: rest)) (passGates deps base call) (Gated call.callId rest)
      fun _ ↦ Sent := by
  rw [passGates]
  refine .bind owing_preToolUse fun blocked ↦ ?_
  cases blocked with
  | true => exact .pure fun _ h ↦ h
  | false => exact gated_judge

/-- What beginning a side effect leaves: a call that was skipped has its result. -/
def BegunFor (id : String) (rest : List String) : Option String → World σ → Prop
  | none => Owing rest
  | some _ => Owing (id :: rest)

theorem begunFor_beginSideEffect :
    Triple (Owing (call.callId :: rest)) (beginSideEffect deps base call)
      (BegunFor call.callId rest) fun _ ↦ Sent := by
  rw [beginSideEffect]
  refine .bind (owing_footprint (s := [.intentFor]) (footprint_ask (fun _ ↦ rfl) fun _ ↦
    List.mem_of_elem_eq_true rfl) (by decide)) fun intent ↦ ?_
  refine .bind (owing_footprint (s := []) (footprint_draw _) (by decide)) fun sideEffectId ↦ ?_
  refine .bind (owing_footprint (footprint_persist .intent rfl (List.mem_singleton_self _))
    (by decide)) fun _ ↦ ?_
  refine .bind (owing_footprint (footprint_mayExecute (List.mem_singleton_self _))
    (by decide)) fun may ↦ ?_
  split
  · exact .bind (owing_footprint (footprint_persist .started rfl (List.mem_singleton_self _))
      (by decide)) fun _ ↦ .pure fun _ h ↦ h
  · refine .bind (owing_footprint (footprint_persist .settled rfl (List.mem_singleton_self _))
      (by decide)) fun _ ↦ ?_
    exact .bind owing_sayOutput fun _ ↦ .pure fun _ h ↦ h

theorem owing_recordResult {result : ToolExecutionResult} :
    Triple (Owing (call.callId :: rest)) (recordResult deps base call result) (fun _ ↦ Owing rest)
      fun _ ↦ Sent := by
  rw [recordResult]
  refine .bind (owing_footprint footprint_postToolUse (by decide)) fun stop ↦ ?_
  refine .bind (owing_footprint (footprint_persistItem .resultItem rfl (List.mem_singleton_self _))
    (by decide)) fun _ ↦ ?_
  exact .bind owing_sayOutput fun _ ↦ .pure fun _ h ↦ h

theorem concluded_afterResults {hookStop : Bool} :
    Triple (Owing rest) (afterResults deps hookStop) (Concluded (Owing rest) Sent)
      fun _ ↦ Sent := by
  refine (owing_footprint (footprint_afterResults (List.mem_singleton_self _)) (by decide)).conseq
    (fun _ h ↦ h) (fun phase _ h ↦ ?_) fun _ _ h ↦ h
  cases phase with
  | go => exact h
  | _ => exact h.sent

/-- **One call** gets its result, or the turn stops there. -/
theorem concluded_runOneCall :
    Triple (Owing (call.callId :: rest)) (runOneCall deps base call) (Concluded (Owing rest) Sent)
      fun _ ↦ Sent := by
  rw [runOneCall]
  refine .bind (owing_footprint (d := deps) (footprint_note (fun _ ↦ rfl)
    (List.mem_singleton_self Kind.takeUp)) (by decide)) fun _ ↦ ?_
  refine .bind taken_takeUp fun phase ↦ ?_
  cases phase with
  | some phase => exact .pure fun _ h ↦ Stopped.concluded h
  | none =>
    refine .bind gated_passGates fun admission ↦ ?_
    cases admission with
    | stop phase => exact .pure fun _ h ↦ Stopped.concluded h
    | refused => exact .pure fun _ h ↦ h
    | admitted =>
      refine .bind begunFor_beginSideEffect fun begun ↦ ?_
      cases begun with
      | none => exact .pure fun _ h ↦ h
      | some sideEffectId =>
        refine .bind (owing_footprint (footprint_execute (List.mem_singleton_self _))
          (by decide)) fun result ↦ ?_
        refine .bind (owing_footprint (footprint_settle (List.mem_singleton_self _))
          (by decide)) fun _ ↦ ?_
        exact .bind owing_recordResult fun stop ↦ concluded_afterResults

/-! ## The calls of a round -/

def ids (calls : List NormalizedToolCall) : List String := calls.map NormalizedToolCall.callId

theorem concluded_runSerially (calls : List NormalizedToolCall) :
    Triple (Owing (ids calls ++ rest)) (runSerially deps base calls) (Concluded (Owing rest) Sent)
      fun _ ↦ Sent := by
  induction calls with
  | nil => exact .pure fun _ h ↦ h
  | cons call calls ih =>
    rw [runSerially]
    change Triple (Owing (call.callId :: (ids calls ++ rest))) _ _ _
    refine .bind concluded_runOneCall fun phase ↦ ?_
    cases phase with
    | go => exact ih
    | _ => exact .pure fun _ h ↦ h

/-- What starting a batch leaves: the calls that were started are owed their results. -/
def StartedFor (rest : List String) :
    Except ToolPhase (List (NormalizedToolCall × String)) → World σ → Prop
  | .ok cleared => Owing (ids (cleared.map Prod.fst) ++ rest)
  | .error phase => Stopped phase

theorem started_startBatch (items : List (NormalizedToolCall × ToolEvaluation)) :
    Triple (Owing (ids (items.map Prod.fst) ++ rest)) (startBatch deps base items)
      (StartedFor rest) fun _ ↦ Sent := by
  induction items generalizing rest with
  | nil => exact .pure fun _ h ↦ h
  | cons item items ih =>
    rw [startBatch]
    refine .bind taken_takeUp fun phase ↦ ?_
    cases phase with
    | some phase => exact .pure fun _ h ↦ h
    | none =>
      change Triple (Owing (item.1.callId :: (ids (items.map Prod.fst) ++ rest))) _ _ _
      refine .bind owing_preToolUse fun blocked ↦ ?_
      cases blocked with
      | true => exact ih
      | false =>
        refine .bind (owing_footprint (footprint_persistVerdict (List.mem_singleton_self _))
          (by decide)) fun _ ↦ ?_
        refine .bind begunFor_beginSideEffect fun begun ↦ ?_
        cases begun with
        | none => exact ih
        | some sideEffectId =>
          -- The result of this call comes after those of the batch, whatever their order.
          refine .bind (ih.conseq (fun _ h ↦ h.perm (List.perm_middle.symm)) (fun _ _ h ↦ h)
            fun _ _ h ↦ h) fun more ↦ ?_
          cases more with
          | ok more => exact .pure fun _ h ↦ Owing.perm h List.perm_middle
          | error phase => exact .pure fun _ h ↦ h

theorem owing_settleBatch (items : List ((NormalizedToolCall × String) × ToolExecutionResult)) :
    Triple (Owing (ids (items.map fun x ↦ x.1.1) ++ rest)) (settleBatch deps base items)
      (fun _ ↦ Owing rest) fun _ ↦ Sent := by
  induction items with
  | nil => exact .pure fun _ h ↦ h
  | cons item items ih =>
    rw [settleBatch]
    change Triple (Owing (item.1.1.callId :: (ids (items.map fun x ↦ x.1.1) ++ rest))) _ _ _
    refine .bind (owing_footprint (footprint_settle (List.mem_singleton_self _))
      (by decide)) fun _ ↦ ?_
    refine .bind owing_recordResult fun stop ↦ ?_
    exact .bind ih fun stops ↦ .pure fun _ h ↦ h

/-- Asking for each of a list answers as many times. -/
theorem owing_runAll {β ι : Type} {f : ι → Engine σ β} (l : List ι)
    (hf : ∀ i, Keeps (Owing pending) (f i)) :
    Triple (Owing pending) (runAll (l.map f)) (fun as w ↦ as.length = l.length ∧ Owing pending w)
      fun _ ↦ Sent := by
  refine (Triple.runAll (d := fun _ ↦ Owing pending) fun _ i _ _ ↦ hf i).conseq (fun _ h ↦ h)
    (fun _ _ h ↦ h) fun _ w h ↦ ?_
  obtain ⟨rest, -, hrest⟩ := h.exists_rest
  exact hrest.sent

/-- **A batch** gives every call its result, or the turn stops there. -/
theorem concluded_runParallelBatch (calls : List NormalizedToolCall) :
    Triple (Owing (ids calls ++ rest)) (runParallelBatch deps base calls)
      (Concluded (Owing rest) Sent) fun _ ↦ Sent := by
  rw [runParallelBatch]
  refine .bind (owing_footprint (d := deps) (footprint_note (fun _ ↦ rfl)
    (List.mem_singleton_self Kind.takeUpBatch)) (by decide)) fun _ ↦ ?_
  refine .bind (owing_runAll calls fun call ↦ keeps_owing (footprint_evaluate
    (List.mem_singleton_self _)) (by decide)) fun verdicts ↦ .assuming fun hlen ↦ ?_
  split
  · have hfst : (calls.zip verdicts).map Prod.fst = calls := List.map_fst_zip hlen.ge
    refine .bind (hfst ▸ started_startBatch (calls.zip verdicts)) fun started ↦ ?_
    cases started with
    | error phase => exact .pure fun _ h ↦ Stopped.concluded h
    | ok cleared =>
      refine .bind (owing_runAll cleared fun x ↦ keeps_owing (footprint_execute
        (List.mem_singleton_self _)) (by decide)) fun results ↦ .assuming fun hlen ↦ ?_
      have hfst : (cleared.zip results).map (fun x ↦ x.1.1) = cleared.map Prod.fst :=
        List.map_map.symm.trans (congrArg (List.map Prod.fst) (List.map_fst_zip hlen.ge))
      exact .bind (hfst ▸ owing_settleBatch (cleared.zip results)) fun stop ↦
        concluded_afterResults
  · exact concluded_runSerially calls

theorem concluded_runGroup (calls : List NormalizedToolCall) :
    Triple (Owing (ids calls ++ rest)) (runGroup deps base calls) (Concluded (Owing rest) Sent)
      fun _ ↦ Sent := by
  rw [runGroup.eq_def]
  split
  · exact .pure fun _ h ↦ h
  · exact concluded_runOneCall
  · exact concluded_runParallelBatch _

theorem ids_filterMap {calls : List NormalizedToolCall} {group : List String}
    (h : ∀ id ∈ group, id ∈ ids calls) : ids (group.filterMap (callById calls)) = group := by
  induction group with
  | nil => rfl
  | cons id group ih =>
    obtain ⟨hid, hgroup⟩ := List.forall_mem_cons.mp h
    obtain ⟨call, hcall, rfl⟩ := List.mem_map.mp hid
    have hsome : ((calls.reverse).find? fun c ↦ c.callId = call.callId).isSome = true :=
      List.find?_isSome.mpr ⟨call, List.mem_reverse.mpr hcall, decide_eq_true rfl⟩
    obtain ⟨found, hfound⟩ := Option.isSome_iff_exists.mp hsome
    have hdecide := List.find?_some hfound
    have hsame : found.callId = call.callId := of_decide_eq_true hdecide
    rw [List.filterMap_cons, callById, hfound]
    exact congrArg₂ List.cons hsame (ih hgroup)

theorem concluded_runGroups {calls : List NormalizedToolCall} (groups : List (List String))
    (h : ∀ id ∈ groups.flatten, id ∈ ids calls) :
    Triple (Owing (groups.flatten ++ rest)) (runGroups deps base calls groups)
      (Concluded (Owing rest) Sent) fun _ ↦ Sent := by
  induction groups with
  | nil => exact .pure fun _ h ↦ h
  | cons group groups ih =>
    rw [List.flatten_cons] at h ⊢
    obtain ⟨hgroup, hgroups⟩ := List.forall_mem_append.mp h
    have hids := ids_filterMap hgroup
    rw [runGroups, List.append_assoc]
    have hrun : Triple (Owing (ids (group.filterMap (callById calls)) ++ (groups.flatten ++ rest)))
        (runGroup deps base (group.filterMap (callById calls)))
        (Concluded (Owing (groups.flatten ++ rest)) Sent) fun _ ↦ Sent := concluded_runGroup _
    rw [hids] at hrun
    refine .bind hrun fun phase ↦ ?_
    cases phase with
    | go => exact ih hgroups
    | _ => exact .pure fun _ h ↦ h

/-- A turn that was not orderly owes whatever one likes. -/
theorem concluded_of_not_orderly {m : Engine σ ToolPhase} (hm : Footprint deps ks m)
    {p : World σ → Prop} (hp : ∀ w, p w → ¬ Orderly w.obs) :
    Triple p m (Concluded (Owing rest) Sent) fun _ ↦ Sent := by
  have hkeeps : Keeps (fun w : World σ ↦ ¬ Orderly w.obs) m := hm.keeps fun hl h ho ↦ by
    obtain ⟨seg, hobs, -⟩ := Leaves.obs hl
    exact h (hobs ▸ ho).of_append
  refine Triple.conseq hkeeps hp (fun phase w h ↦ ?_) fun _ _ h ho ↦ absurd ho h
  cases phase <;> exact fun ho ↦ absurd ho h

theorem planned_planBatches (calls : List NormalizedToolCall) :
    Triple (Owing (ids calls)) (planBatches deps calls)
      (fun groups w ↦ Owing (ids calls) w ∧ (Orderly w.obs → groups.flatten.Perm (ids calls)))
      fun _ ↦ Sent := by
  rw [planBatches]
  cases hplan : deps.tools.planBatches with
  | none =>
    refine .pure fun w h ↦ ⟨h, fun _ ↦ ?_⟩
    rw [← List.flatMap_def, ← List.map_eq_flatMap]
    exact .refl _
  | some plan =>
    refine ask_rule (fun _ ↦ ⟨plan, hplan, rfl⟩) (fun {w w'} groups h ha ↦ ⟨?_, fun ho ↦ ?_⟩)
      fun {w w'} e h ha ↦ ?_
    · exact h.leaves (s := [.plan]) (by decide) (ha.leaves (List.mem_singleton_self _))
    · rw [ha.obs] at ho
      exact ho _ (List.mem_append_right _ (List.mem_singleton_self _))
    · exact h.sent.leaves (s := [.plan]) (by decide) (ha.leaves (List.mem_singleton_self _))

theorem concluded_runToolCalls (calls : List NormalizedToolCall) :
    Triple (Owing (ids calls)) (runToolCalls deps base calls) (Concluded (Owing []) Sent)
      fun _ ↦ Sent := by
  rw [runToolCalls]
  refine .bind (planned_planBatches calls) fun groups ↦ ?_
  by_cases hperm : groups.flatten.Perm (ids calls)
  · have hrun : Triple (Owing (groups.flatten ++ [])) (runGroups deps base calls groups)
        (Concluded (Owing []) Sent) fun _ ↦ Sent :=
      concluded_runGroups groups fun id hid ↦ hperm.mem_iff.mp hid
    rw [List.append_nil] at hrun
    exact hrun.conseq (fun _ h ↦ h.1.perm hperm.symm) (fun _ _ h ↦ h) fun _ _ h ↦ h
  · exact concluded_of_not_orderly (footprint_runGroups calls groups) fun w h ho ↦ hperm (h.2 ho)

/-! ## A round -/

/-- A turn that is over sends nothing. -/
theorem over_rule {m : Engine σ Unit} {reason : TerminationReason} {answer : α}
    {q : α → World σ → Prop} (hq : ∀ w, Sent w → q answer w) (hm : Footprint deps endKinds m) :
    Triple Sent (do m; setTerminalReason reason; pure answer) q fun _ ↦ Sent :=
  .bind (sent_footprint hm (by decide)) fun _ ↦
    .bind (sent_footprint (d := deps) (s := []) footprint_setTerminalReason (by decide))
      fun _ ↦ .pure hq

/-- Where the turn goes on, nothing is owed. -/
theorem answered_concludePhase {phase : ToolPhase} :
    Triple (Concluded (Owing []) Sent phase) (concludePhase deps base phase)
      (Continues (Owing []) Sent) fun _ ↦ Sent := by
  cases phase with
  | budget reason => exact over_rule (fun _ h ↦ h) footprint_endTurn
  | cancelled => exact over_rule (fun _ h ↦ h) footprint_cancel
  | hookStop => exact over_rule (fun _ h ↦ h) footprint_endTurn
  | awaitingApproval pending =>
    exact .bind (sent_footprint (d := deps) (s := []) (footprint_modifyTurn (fun _ ↦ rfl)
      (fun _ ↦ rfl) fun _ ↦ rfl) (by decide)) fun _ ↦ .pure fun _ h ↦ h
  | go =>
    refine (owing_footprint footprint_concludePhase (by decide)).conseq (fun _ h ↦ h)
      (fun goes _ h ↦ ?_) fun _ _ h ↦ h
    cases goes with
    | true => exact h
    | false => exact h.sent

/-- The calls of a round have all been answered where the turn goes on. -/
theorem answered_toolPhase (calls : List NormalizedToolCall) :
    Triple (Owing (ids calls)) (toolPhase deps base calls) (Continues (Owing []) Sent)
      fun _ ↦ Sent := by
  rcases calls with - | ⟨call, calls⟩
  · exact .pure fun _ h ↦ h
  rw [toolPhase, List.isEmpty_cons, if_neg Bool.false_ne_true]
  refine .bind (owing_footprint (d := deps) (footprint_transitionUnless
    (List.mem_singleton_self _)) (by decide)) fun _ ↦ ?_
  refine .bind (owing_footprint (footprint_persistState (List.mem_singleton_self _))
    (by decide)) fun _ ↦ ?_
  refine .bind (concluded_runToolCalls (call :: calls)) fun phase ↦ ?_
  have hfire : Triple (Concluded (Owing []) Sent phase)
      (fireLifecycle deps (.postToolBatch (call :: calls).length))
      (fun _ ↦ Concluded (Owing []) Sent phase) fun _ ↦ Sent := by
    cases phase with
    | go => exact owing_footprint (footprint_fireLifecycle (List.mem_singleton_self _)) (by decide)
    | _ => exact sent_footprint (footprint_fireLifecycle (List.mem_singleton_self _)) (by decide)
  exact .bind hfire fun _ ↦ answered_concludePhase

/-- Nothing is owed, and this is the conversation. -/
structure Ready (input : List ModelInputItem) (w : World σ) : Prop where
  owing : Owing [] w
  conversation : w.turn.conversation = input

/-- Nothing is owed, and the calls of the round have ids of their own. -/
def Received (round : NormalizedRound) (w : World σ) : Prop :=
  Orderly w.obs → RequestsAnswered w.obs ∧ Owes [] w.turn.conversation ∧
    (ids round.toolCalls).Nodup ∧ ∀ id ∈ ids round.toolCalls, id ∉ callIds w.turn.conversation

theorem Received.owing {round : NormalizedRound} (h : Received round w) : Owing [] w :=
  fun ho ↦ ⟨(h ho).1, (h ho).2.1⟩

theorem ready_footprint {d : TurnEngineDeps σ} {s : List Kind} {input : List ModelInputItem}
    {m : Engine σ α} (hm : Footprint d s m) (hks : .stream ∉ s ∧ .said ∉ s ∧ .adopted ∉ s) :
    Triple (Ready input) m (fun _ ↦ Ready input) fun _ ↦ Sent := by
  have hkeeps : Keeps (Ready input) m := hm.keeps fun hl h ↦
    ⟨h.owing.leaves hks hl, (hl.conversation hks.2.1 hks.2.2).trans h.conversation⟩
  exact hkeeps.conseq (fun _ h ↦ h) (fun _ _ h ↦ h) fun _ _ h ↦ h.owing.sent

theorem received_footprint {d : TurnEngineDeps σ} {s : List Kind} {round : NormalizedRound}
    {m : Engine σ α} (hm : Footprint d s m) (hks : .stream ∉ s ∧ .said ∉ s ∧ .adopted ∉ s) :
    Triple (Received round) m (fun _ ↦ Received round) fun _ ↦ Sent := by
  have hkeeps : Keeps (Received round) m := hm.keeps fun hl h ho ↦ by
    obtain ⟨seg, hobs, -⟩ := Leaves.obs hl
    obtain ⟨hsent, howes⟩ := Received.owing h |>.leaves hks hl ho
    rw [hl.conversation hks.2.1 hks.2.2] at howes ⊢
    exact ⟨hsent, howes, (h (hobs ▸ ho).of_append).2.2⟩
  exact hkeeps.conseq (fun _ h ↦ h) (fun _ _ h ↦ h) fun _ _ h ↦ h.owing.sent

/-- **A request goes out** when nothing is owed. -/
theorem Ready.stream {request : ModelRequest} {answer : Except Thrown (List ProviderStreamEvent)}
    (h : Ready request.input w) (ha : Adds deps (.stream request answer) w w') :
    Ready request.input w' := by
  have hconversation : w'.turn.conversation = w.turn.conversation :=
    ha.conversation (by rintro ⟨⟩) (by rintro ⟨⟩)
  refine ⟨fun ho ↦ ?_, hconversation.trans h.conversation⟩
  rw [ha.obs] at ho ⊢
  obtain ⟨hsent, howes⟩ := h.owing ho.of_append
  refine ⟨fun request' answer' hmem ↦ ?_, hconversation ▸ howes⟩
  rcases List.mem_append.mp hmem with hmem | hmem
  · exact hsent request' answer' hmem
  · cases List.mem_singleton.mp hmem
    rw [← h.conversation]
    exact howes.answered

theorem received_streamWithRetry (request : ModelRequest) {startedAt : ℤ} (fuel : ℕ)
    {attempt : ℕ} :
    Triple (Ready request.input) (streamWithRetry deps request startedAt attempt fuel) Received
      fun _ ↦ Sent := by
  induction fuel generalizing attempt with
  | zero => exact .throw fun _ h ↦ h.owing.sent
  | succ fuel ih =>
    rw [streamWithRetry]
    refine .tryCatch (s := fun _ ↦ Ready request.input) ?_ fun err ↦ ?_
    · refine .bind (s := fun events ↦ Received (normalizeRound events)) ?_ fun events ↦
        .pure fun _ h ↦ h
      refine ask_rule (fun _ ↦ rfl) (fun {w w'} events h ha ho ↦ ?_) fun _ h ha ↦ h.stream ha
      obtain ⟨hsent, howes⟩ := (h.stream ha).owing ho
      rw [ha.obs] at ho
      rw [(h.stream ha).conversation] at howes ⊢
      exact ⟨hsent, howes, ho _ (List.mem_append_right _ (List.mem_singleton_self _))⟩
    · refine .bind (ready_footprint (footprint_signalAborted (List.mem_singleton_self _))
        (by decide)) fun aborted ↦ ?_
      split
      · exact .throw fun _ h ↦ h.owing.sent
      · cases err with
        | other message => exact .throw fun _ h ↦ h.owing.sent
        | harness error =>
          refine .bind (ready_footprint (s := []) footprint_now (by decide)) fun now ↦ ?_
          refine .bind (ready_footprint (s := []) (footprint_read fun _ ↦ .inr (.inl rfl))
            (by decide)) fun r ↦ ?_
          refine .bind (ready_footprint (d := deps) (s := []) (.orThrow _) (by decide))
            fun decision ↦ ?_
          cases decision with
          | error reason => exact .throw fun _ h ↦ h.owing.sent
          | ok delayMs =>
            exact .bind (ready_footprint (s := [.sleep]) (footprint_ask (fun _ ↦ rfl) fun _ ↦
              List.mem_of_elem_eq_true rfl) (by decide)) fun _ ↦ ih

theorem received_requestRound {ctx : DriveContext} :
    Triple (Owing []) (requestRound deps base ctx) Received fun _ ↦ Sent := by
  rw [requestRound]
  refine .bind (s := fun turn ↦ Ready turn.conversation) (fun _ h ↦ ⟨h, rfl⟩) fun turn ↦ ?_
  refine .bind (ready_footprint (footprint_persist .requestStarted rfl
    (List.mem_singleton_self _)) (by decide)) fun _ ↦ ?_
  refine .bind (ready_footprint (s := []) footprint_now (by decide)) fun startedAt ↦ ?_
  refine .bind (received_streamWithRetry { model := ctx.model, instructions := ctx.instructions
                                           input := turn.conversation, tools := ctx.tools } _)
    fun round ↦ ?_
  refine .bind (received_footprint (d := deps) (s := []) (footprint_modifyTurn (fun _ ↦ rfl)
    (fun _ ↦ rfl) fun _ ↦ rfl) (by decide)) fun _ ↦ ?_
  refine .bind (received_footprint (footprint_persist .request rfl (List.mem_singleton_self _))
    (by decide)) fun _ ↦ ?_
  refine .bind (received_footprint (footprint_persistItems fun body hb ↦
    kind_of_mem_roundItems hb) (by decide)) fun _ ↦ ?_
  refine .bind (.when (fun _ ↦ received_footprint (d := deps) (s := []) (footprint_modifyTurn
    (fun _ ↦ rfl) (fun _ ↦ rfl) fun _ ↦ rfl) (by decide)) fun _ _ h ↦ h) fun _ ↦ ?_
  exact .pure fun _ h ↦ h

/-- A message of the round leaves the ids of its calls their own. -/
theorem received_say {round : NormalizedRound} {role : Role} {text : String}
    {r : Thrown → World σ → Prop} :
    Triple (Received (σ := σ) round) (say [.message role text]) (fun _ ↦ Received round) r := by
  have hsame : ∀ items, callIds (items ++ [.message role text]) = callIds items := fun items ↦
    (idsOf_append true items _).trans (List.append_nil _)
  refine said_rule (C := fun items ↦ Owes [] items ∧ (ids round.toolCalls).Nodup ∧
    ∀ id ∈ ids round.toolCalls, id ∉ callIds items) fun w hw ho ↦ ?_
  obtain ⟨hsent, howes, hnodup, hnew⟩ := hw ho
  rw [hsame]
  refine ⟨hsent, howes.message fun item hmem ↦ ?_, hnodup, hnew⟩
  rw [List.mem_singleton.mp hmem]
  rfl

theorem callIds_functionCallItem (calls : List NormalizedToolCall) :
    callIds (calls.map functionCallItem) = ids calls := by
  induction calls with
  | nil => rfl
  | cons call calls ih => exact congrArg (call.callId :: ·) ih

/-- **The calls of the round are said.** Now each is owed a result. -/
theorem received_sayCalls {round : NormalizedRound} {r : Thrown → World σ → Prop} :
    Triple (Received (σ := σ) round) (say (round.toolCalls.map functionCallItem))
      (fun _ ↦ Owing (ids round.toolCalls)) r := by
  refine said_rule fun w hw ho ↦ ?_
  obtain ⟨hsent, howes, hnodup, hnew⟩ := hw ho
  rw [← callIds_functionCallItem] at hnodup hnew ⊢
  refine ⟨hsent, howes.askAll (fun item hmem ↦ ?_) hnodup hnew⟩
  obtain ⟨call, -, rfl⟩ := List.mem_map.mp hmem
  exact ⟨call.callId, call.toolName, call.argumentsJson, rfl⟩

/-! ## The loop -/

section Unmanaged

variable (hcontext : deps.context = none)

include hcontext

/-- Where the model asks for calls, they are owed their results. -/
theorem owing_modelPhase {ctx : DriveContext} :
    Triple (Owing []) (modelPhase deps base ctx)
      (fun next w ↦ match next with
        | some calls => Owing (ids calls) w
        | none => Sent w)
      fun _ ↦ Sent := by
  have hover : ∀ state reason, Triple Sent (do
      endTurn deps base state reason
      setTerminalReason reason
      pure none) (fun (next : Option (List NormalizedToolCall)) w ↦ match next with
        | some calls => Owing (ids calls) w
        | none => Sent w) fun _ ↦ Sent := fun state reason ↦
    over_rule (fun _ h ↦ h) footprint_endTurn
  rw [modelPhase]
  refine .bind (owing_footprint (s := []) footprint_now (by decide)) fun now ↦ ?_
  refine .bind (owing_footprint (d := deps) (s := [.modelCall]) (footprint_useBudget
    (.inl (List.mem_singleton_self _)) (.inr fun b ↦ b.toolCalls_beforeModelCall))
    (by decide)) fun verdict ↦ ?_
  cases verdict with
  | some reason =>
    refine .bind (owing_footprint (d := deps) (footprint_note (fun _ ↦ rfl)
      (List.mem_singleton_self Kind.budgetStop)) (by decide)) fun _ ↦ ?_
    exact (hover .budgetExhausted reason).conseq (fun _ h ↦ h.sent) (fun _ _ h ↦ h) fun _ _ h ↦ h
  | none =>
    refine .bind (owing_footprint (d := deps) (footprint_transitionUnless
      (List.mem_singleton_self _)) (by decide)) fun _ ↦ ?_
    refine .bind (owing_footprint (footprint_persistState (List.mem_singleton_self _))
      (by decide)) fun _ ↦ ?_
    rw [prepareContext, hcontext]
    refine .bind (s := fun goes w ↦ goes = true ∧ Owing [] w) (.pure fun _ h ↦ ⟨rfl, h⟩)
      fun goes ↦ .assuming fun hgoes ↦ ?_
    rw [if_pos hgoes]
    refine .bind received_requestRound fun round ↦ ?_
    split
    · exact (hover .completed .naturalCompletion).conseq (fun _ h ↦ h.owing.sent) (fun _ _ h ↦ h)
        fun _ _ h ↦ h
    · refine .bind (.when (fun _ ↦ received_say) fun _ _ h ↦ h) fun _ ↦ ?_
      exact .bind received_sayCalls fun _ ↦ .pure fun _ h ↦ h

theorem sent_driveLoop (ctx : DriveContext) (fuel : ℕ) (calls : List NormalizedToolCall) :
    Triple (Owing (ids calls)) (driveLoop deps base ctx fuel calls) (fun _ ↦ Sent)
      fun _ ↦ Sent := by
  induction fuel generalizing calls with
  | zero => exact .pure fun _ h ↦ h.sent
  | succ fuel ih =>
    rw [driveLoop]
    refine .bind (owing_footprint (footprint_signalAborted (List.mem_singleton_self _))
      (by decide)) fun aborted ↦ ?_
    split
    · refine Triple.conseq (s := Sent) ?_ (fun _ h ↦ h.sent) (fun _ _ h ↦ h) fun _ _ h ↦ h
      refine .bind (sent_footprint footprint_cancel (by decide)) fun _ ↦ ?_
      exact sent_footprint (d := deps) (s := []) footprint_setTerminalReason (by decide)
    · refine .bind (answered_toolPhase calls) fun goes ↦ ?_
      cases goes with
      | false => exact .pure fun _ h ↦ h
      | true =>
        refine .bind (owing_modelPhase hcontext) fun next ↦ ?_
        cases next with
        | some calls => exact ih calls
        | none => exact .pure fun _ h ↦ h

theorem sent_drive (ctx : DriveContext) (calls : List NormalizedToolCall) :
    Triple (Owing (ids calls)) (drive deps base ctx calls) (fun _ ↦ Sent) fun _ ↦ Sent := by
  refine .bind (.tryCatch (sent_driveLoop hcontext ctx _ calls) fun e ↦
    sent_footprint footprint_driveCatch (by decide)) fun _ ↦ ?_
  exact fun _ h ↦ h

end Unmanaged

theorem owing_drainNotifications :
    Triple (Owing []) (drainNotifications deps) (fun _ ↦ Owing []) fun _ ↦ Sent := by
  rw [drainNotifications]
  cases hdrain : deps.notifications with
  | none => exact .pure fun _ h ↦ h
  | some drain =>
    refine .bind (owing_footprint (d := deps) (s := []) (footprint_read fun _ ↦
      .inr (.inr ⟨drain, hdrain, rfl⟩)) (by decide)) fun drained ↦ ?_
    refine .bind (owing_say fun _ h ↦ h.message fun item hmem ↦ ?_) fun _ ↦ ?_
    · obtain ⟨summary, -, rfl⟩ := List.mem_map.mp hmem
      rfl
    · exact .when (fun _ ↦ owing_footprint (footprint_fireLifecycle (List.mem_singleton_self _))
        (by decide)) fun _ _ h ↦ h

/-- The history a turn starts from is well paired. A resumed turn still owes the calls it was
suspended in. -/
def HistoryPaired : TurnInput → Prop
  | .run input => Context.Answered input.history
  | .resume input => Owes (ids input.pendingCalls) input.history

/-- **Every request is answered in full.** Where no context manager rewrites the conversation, and
the rounds and plans are orderly, each call in a request has exactly one result after it and each
result exactly one call before it. -/
theorem enter_requestsAnswered (deps : TurnEngineDeps σ) (hcontext : deps.context = none)
    (input : TurnInput) (hhistory : HistoryPaired input) (env : σ) (drawn : ℕ)
    (horderly : Orderly (after (enter deps input (initial env drawn))).obs) :
    RequestsAnswered (after (enter deps input (initial env drawn))).obs := by
  have hopen : ∀ {w : World σ}, w.trace = [] → RequestsAnswered w.obs := fun {w} hw ↦ by
    have hnone : w.obs = [] := by rw [World.obs, hw]; rfl
    intro request answer hmem
    rw [hnone] at hmem
    exact absurd hmem List.not_mem_nil
  have henter : Triple (fun w : World σ ↦ w.trace = []) (enter deps input) (fun _ ↦ Sent)
      fun _ ↦ Sent := by
    cases input with
    | run input =>
      refine .bind (s := fun _ (w : World σ) ↦ w.trace = []) (fun _ h ↦ h) fun now ↦ ?_
      refine .bind (s := fun _ (w : World σ) ↦ w.trace = []) (fun _ h ↦ h) fun turnId ↦ ?_
      refine .bind (s := fun _ ↦ Owing []) (fun w hw _ ↦ ⟨hopen hw, hhistory.owes⟩) fun _ ↦ ?_
      refine .bind (owing_footprint (footprint_persist .turnStarted rfl
        (List.mem_singleton_self _)) (by decide)) fun _ ↦ ?_
      refine .bind (owing_say fun _ h ↦ h.message fun item hmem ↦ ?_) fun _ ↦ ?_
      · rw [List.mem_singleton.mp hmem]
        rfl
      · exact .bind owing_drainNotifications fun _ ↦ sent_drive hcontext _ []
    | resume input =>
      refine .bind (s := fun _ (w : World σ) ↦ w.trace = []) (fun _ h ↦ h) fun now ↦ ?_
      refine .bind (s := fun _ ↦ Owing (ids input.pendingCalls)) (fun w hw _ ↦
        ⟨hopen hw, hhistory⟩) fun _ ↦ ?_
      exact sent_drive hcontext _ _
  have hafter := henter (initial env drawn) rfl
  cases hr : enter deps input (initial env drawn) with
  | ok a w => rw [hr] at hafter horderly; exact hafter horderly
  | error e w => rw [hr] at hafter horderly; exact hafter horderly

/-- A model that reads a file before it answers. -/
def readingDeps : TurnEngineDeps Unit :=
  { plainDeps with
    stream := fun request _ ↦
      (.ok (if (outputIds request.input).isEmpty
        then [.toolCallComplete (plainCall "call_1" "read_file"), .done .toolCalls]
        else [.textDone "" "done", .done .stop]), ()) }

theorem requestsAnswered_reading :
    RequestsAnswered (after (enter readingDeps plainRun (initial () 0))).obs :=
  enter_requestsAnswered readingDeps rfl plainRun (answered_iff_owes.mpr Owes.nil) () 0
    (by decide +kernel)

end TurnEngine

end QwenHarness
