import QwenHarness.Runtime.Carried
import QwenHarness.Runtime.Requests

/-!
# Requests under the context manager

Where the context manager of the command line rewrites the conversation, the requests are answered
in full as long as no compaction cuts a call from its result. What was shown without a context
manager is used as it stands, under that assumption.
-/

namespace QwenHarness

open Effect Context

/-- A compaction leaves no result without its call. -/
def Obs.Uncut : Obs → Prop
  | .prepare conversation (.ok prep) =>
    prep.compacted = true → isPairingIntact (conversation.rtake keepRecent) = true
  | _ => True

instance : DecidablePred Obs.Uncut := fun o ↦ by
  unfold Obs.Uncut
  split <;> infer_instance

def Uncut (obs : List Obs) : Prop := ∀ o ∈ obs, o.Uncut

instance : DecidablePred Uncut := fun obs ↦ inferInstanceAs (Decidable (∀ o ∈ obs, o.Uncut))

namespace TurnEngine

variable {σ α : Type} {options : ContextManagerOptions σ} {managerCall : PrepareCall}
  {deps : TurnEngineDeps (ManagerState σ)} {base : PersistBase} {pending : List String}
  {w w' : World (ManagerState σ)}

/-- What holds if no compaction has cut a pair. -/
def IfUncut (p : World σ → Prop) (w : World σ) : Prop := Uncut w.obs → p w

theorem uncut_of_leaves {ks : List Kind} {d : TurnEngineDeps σ} {w w' : World σ}
    (hl : Leaves d ks w w') (h : Uncut w'.obs) : Uncut w.obs := by
  obtain ⟨seg, hobs, -⟩ := hl.obs
  exact fun o ho ↦ h o (hobs ▸ List.mem_append_left _ ho)

/-- What was shown of a program is shown of it here. -/
theorem ifUncut_rule {ks : List Kind} {d : TurnEngineDeps σ} {m : Engine σ α} {p : World σ → Prop}
    {q : α → World σ → Prop} {r : Thrown → World σ → Prop} (hm : Footprint d ks m)
    (h : Triple p m q r) :
    Triple (IfUncut p) m (fun a ↦ IfUncut (q a)) fun e ↦ IfUncut (r e) :=
  h.under hm fun hl ↦ uncut_of_leaves hl

section

variable {m : Engine (ManagerState σ) α}

theorem ifUncut_owing {k : List Kind} {d : TurnEngineDeps (ManagerState σ)}
    (hm : Footprint d k m) (hk : .stream ∉ k ∧ .said ∉ k ∧ .adopted ∉ k) :
    Triple (IfUncut (Owing pending)) m (fun _ ↦ IfUncut (Owing pending)) fun _ ↦ IfUncut Sent :=
  ifUncut_rule hm (owing_footprint hm hk)

theorem ifUncut_sent {k : List Kind} {d : TurnEngineDeps (ManagerState σ)}
    (hm : Footprint d k m) (hk : .stream ∉ k) :
    Triple (IfUncut Sent) m (fun _ ↦ IfUncut Sent) fun _ ↦ IfUncut Sent :=
  ifUncut_rule hm (sent_footprint hm hk)

end

/-! ## The conversation is prepared -/

/-- Nothing is owed, and nothing would be if this took the place of the conversation. -/
def Prepares (prep : ContextPreparation) (w : World (ManagerState σ)) : Prop :=
  Owing [] w ∧ (Orderly w.obs → Answered prep.items)

theorem Prepares.leaves {ks : List Kind} {prep : ContextPreparation} (h : Prepares prep w)
    (hks : .stream ∉ ks ∧ .said ∉ ks ∧ .adopted ∉ ks) (hl : Leaves deps ks w w') :
    Prepares prep w' := by
  refine ⟨h.1.leaves hks hl, fun ho ↦ ?_⟩
  obtain ⟨seg, hobs, -⟩ := hl.obs
  exact h.2 (hobs ▸ ho).of_append

theorem prepares_footprint {ks : List Kind} {m : Engine (ManagerState σ) α}
    {prep : ContextPreparation} (hm : Footprint deps ks m)
    (hks : .stream ∉ ks ∧ .said ∉ ks ∧ .adopted ∉ ks) :
    Triple (IfUncut (Prepares prep)) m (fun _ ↦ IfUncut (Prepares prep)) fun _ ↦ IfUncut Sent :=
  Triple.conseq (ifUncut_rule hm (hm.keeps fun hl h ↦ Prepares.leaves h hks hl)) (fun _ h ↦ h)
    (fun _ _ h ↦ h) fun _ _ h hu ↦ (h hu).1.sent

/-- What was prepared takes the place of the conversation. -/
theorem owing_adopt {prep : ContextPreparation} {r : Thrown → World (ManagerState σ) → Prop} :
    Triple (Prepares prep) (adopt prep.items) (fun _ ↦ Owing []) r := by
  intro w hw ho
  have hobs : World.obs { w.record (.adopted prep.items) with
      turn := { w.turn with conversation := prep.items } } =
      w.obs ++ [.adopted prep.items] := World.obs_record w _
  rw [hobs] at ho ⊢
  refine ⟨requestsAnswered_append (hw.1 ho.of_append).1 fun o hmem ↦ ?_,
    (hw.2 ho.of_append).owes⟩
  rw [List.mem_singleton.mp hmem]
  rintro ⟨⟩

theorem owing_prepareContext (hmanaged : Managed options managerCall deps) :
    Triple (IfUncut (Owing [])) (prepareContext deps base)
      (fun goes ↦ Continues (IfUncut (Owing [])) (IfUncut Sent) goes) fun _ ↦ IfUncut Sent := by
  rw [prepareContext, hmanaged]
  refine .bind (s := fun turn w ↦ turn = w.turn ∧ IfUncut (Owing []) w) (fun _ h ↦ ⟨rfl, h⟩)
    fun turn ↦ ?_
  refine .bind (s := fun prep ↦ IfUncut (Prepares prep)) (ask_rule (fun _ ↦ ⟨_, hmanaged, rfl⟩)
    (fun {w w'} prep h ha hu ↦ ?_) fun {w w'} e h ha hu ↦ ?_) fun prep ↦ ?_
  · obtain ⟨rfl, h⟩ := h
    have hl : Leaves deps [.preparation] w w' := ha.leaves (List.mem_singleton_self _)
    have howing := h (uncut_of_leaves hl hu)
    refine ⟨howing.leaves (by decide) hl, fun ho ↦ ?_⟩
    rw [ha.obs] at ho hu
    refine (howing ho.of_append).2.answered.prepared (prepared_of_answers hmanaged ha.answers) ?_
    exact hu _ (List.mem_append_right _ (List.mem_singleton_self _))
  · have hl : Leaves deps [.preparation] w w' := ha.leaves (List.mem_singleton_self _)
    exact ((h.2 (uncut_of_leaves hl hu)).leaves (by decide) hl).sent
  · refine .bind (prepares_footprint (footprint_signalAborted (List.mem_singleton_self _))
      (by decide)) fun aborted ↦ ?_
    split
    · refine Triple.conseq (s := IfUncut Sent) ?_ (fun _ h hu ↦ (h hu).1.sent) (fun _ _ h ↦ h)
        fun _ _ h ↦ h
      refine .bind (ifUncut_sent footprint_cancel (by decide)) fun _ ↦ ?_
      exact .bind (ifUncut_sent (d := deps) (k := []) footprint_setTerminalReason (by decide))
        fun _ ↦ .pure fun _ h ↦ h
    · refine .bind (ifUncut_rule (d := deps) (footprint_adopt (List.mem_singleton_self _))
        owing_adopt) fun _ ↦ ?_
      exact .bind (.when (fun _ ↦ ifUncut_owing (footprint_fireLifecycle
        (List.mem_singleton_self _)) (by decide)) fun _ _ h ↦ h) fun _ ↦ .pure fun _ h ↦ h

/-! ## The loop -/

/-- The calls the model asks for are owed their results. -/
def Requested : Option (List NormalizedToolCall) → World (ManagerState σ) → Prop
  | some calls => IfUncut (Owing (ids calls))
  | none => IfUncut Sent

theorem requested_over {m : Engine (ManagerState σ) Unit} {reason : TerminationReason}
    (hm : Footprint deps endKinds m) :
    Triple (IfUncut Sent) (do m; setTerminalReason reason; pure none) Requested
      fun _ ↦ IfUncut Sent :=
  .bind (ifUncut_sent hm (by decide)) fun _ ↦
    .bind (ifUncut_sent (d := deps) (k := []) footprint_setTerminalReason (by decide))
      fun _ ↦ .pure fun _ h ↦ h

theorem requested_modelPhase (hmanaged : Managed options managerCall deps) {ctx : DriveContext} :
    Triple (IfUncut (Owing [])) (modelPhase deps base ctx) Requested fun _ ↦ IfUncut Sent := by
  rw [modelPhase]
  refine .bind (ifUncut_owing (d := deps) (k := []) footprint_now (by decide)) fun now ↦ ?_
  refine .bind (ifUncut_owing (d := deps) (k := [.modelCall]) (footprint_useBudget
    (.inl (List.mem_singleton_self _)) (.inr fun b ↦ b.toolCalls_beforeModelCall))
    (by decide)) fun verdict ↦ ?_
  split
  · refine .bind (ifUncut_owing (d := deps) (footprint_note (fun _ ↦ rfl)
      (List.mem_singleton_self Kind.budgetStop)) (by decide)) fun _ ↦ ?_
    exact (requested_over footprint_endTurn).conseq (fun _ h hu ↦ (h hu).sent) (fun _ _ h ↦ h)
      fun _ _ h ↦ h
  · refine .bind (ifUncut_owing (d := deps) (footprint_transitionUnless
      (List.mem_singleton_self _)) (by decide)) fun _ ↦ ?_
    refine .bind (ifUncut_owing (footprint_persistState (List.mem_singleton_self _))
      (by decide)) fun _ ↦ ?_
    refine .bind (owing_prepareContext hmanaged) fun goes ↦ ?_
    cases goes with
    | false => exact .pure fun _ h ↦ h
    | true =>
      refine .bind (ifUncut_rule footprint_requestRound received_requestRound) fun round ↦ ?_
      split
      · exact (requested_over footprint_endTurn).conseq (fun _ h hu ↦ (h hu).owing.sent)
          (fun _ _ h ↦ h) fun _ _ h ↦ h
      · refine .bind (.when (fun _ ↦ ifUncut_rule (d := deps) (footprint_say
          (List.mem_singleton_self _)) received_say) fun _ _ h ↦ h) fun _ ↦ ?_
        exact .bind (ifUncut_rule (d := deps) (footprint_say (List.mem_singleton_self _))
          received_sayCalls) fun _ ↦ .pure fun _ h ↦ h

theorem ifUncut_driveLoop (hmanaged : Managed options managerCall deps) (ctx : DriveContext)
    (fuel : ℕ) (calls : List NormalizedToolCall) :
    Triple (IfUncut (Owing (ids calls))) (driveLoop deps base ctx fuel calls)
      (fun _ ↦ IfUncut Sent) fun _ ↦ IfUncut Sent := by
  induction fuel generalizing calls with
  | zero => exact .pure fun _ h hu ↦ (h hu).sent
  | succ fuel ih =>
    rw [driveLoop]
    refine .bind (ifUncut_owing (footprint_signalAborted (List.mem_singleton_self _))
      (by decide)) fun aborted ↦ ?_
    split
    · refine Triple.conseq (s := IfUncut Sent) ?_ (fun _ h hu ↦ (h hu).sent) (fun _ _ h ↦ h)
        fun _ _ h ↦ h
      refine .bind (ifUncut_sent footprint_cancel (by decide)) fun _ ↦ ?_
      exact ifUncut_sent (d := deps) (k := []) footprint_setTerminalReason (by decide)
    · refine .bind (ifUncut_rule footprint_toolPhase (answered_toolPhase calls)) fun goes ↦ ?_
      cases goes with
      | false => exact .pure fun _ h ↦ h
      | true =>
        refine .bind (requested_modelPhase hmanaged) fun next ↦ ?_
        cases next with
        | some calls => exact ih calls
        | none => exact .pure fun _ h ↦ h

theorem ifUncut_drive (hmanaged : Managed options managerCall deps) (ctx : DriveContext)
    (calls : List NormalizedToolCall) :
    Triple (IfUncut (Owing (ids calls))) (drive deps base ctx calls) (fun _ ↦ IfUncut Sent)
      fun _ ↦ IfUncut Sent :=
  .bind (.tryCatch (ifUncut_driveLoop hmanaged ctx _ calls) fun _ ↦
    ifUncut_sent footprint_driveCatch (by decide)) fun _ _ h ↦ h

/-- The second file is read after the first. -/
def afterTwoRounds : TurnInput :=
  .resume
    { threadId := "thr_000001", turnId := "trn_000001", correlationId := "cor_000001"
      permissionProfile := .ask, model := "qwen", instructions := ""
      history :=
        [.message .user "Compare the two files.",
          .functionCall "call_a" "read_file" (String.ofList (List.replicate 200 'x')),
          .functionOutput "call_a" "read_file" "A", .functionCall "call_b" "read_file" "",
          .functionOutput "call_b" "read_file" "B", .message .assistant "They differ.",
          .message .user "And now?"]
      pendingCalls := [], tools := [], actor := ⟨.user, "act_000001", none⟩ }

end TurnEngine

end QwenHarness
