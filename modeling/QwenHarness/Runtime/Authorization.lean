import QwenHarness.Runtime.Drive
import Mathlib.Data.List.DropRight

/-!
# Nothing executes without leave

Every execution of a tool is preceded, in the pass that led to it, by everything that allows it: the
call was offered to the hooks and they did not block it, policy judged it allowed or a person
granted it, and its intent and its start were appended. A pass is one visit to a call on the serial
path, or one parallel batch from its first evaluation on.

The statement is about the records before the execution, so it holds whatever the hooks, the
verdicts, the batch plan and the signal answer, and wherever the turn is cut short.
-/

namespace QwenHarness

open Effect

/-! ## What the records show -/

namespace Obs

/-- The hooks let the call pass. -/
def Offered (call : NormalizedToolCall) : Obs → Prop
  | .preToolUse c (.ok gate) => c = call ∧ gate.blocked = false
  | _ => False

/-- Policy judged the call so. -/
def Judged (call : NormalizedToolCall) (status : EvaluationStatus) : Obs → Prop
  | .evaluate c (.ok verdict) => c = call ∧ verdict.status = status
  | _ => False

/-- A granted approval for this call was appended. -/
def Granted (call : NormalizedToolCall) : Obs → Prop
  | .append input (.ok ()) => ∃ scope, input.payload = .approvalResolved (some call.callId) true scope
  | _ => False

/-- The intent of a side effect was appended, as the executor stated it. -/
def Intended (sideEffectId : String) (intent : ToolIntent) : Obs → Prop
  | .append input (.ok ()) => input.payload = .sideEffectIntent
      { sideEffectId, idempotencyKey := intent.idempotencyKey, kind := intent.kind
        destructive := intent.destructive, normalizedAction := intent.normalizedAction }
  | _ => False

/-- The start of a side effect was appended. -/
def Started (sideEffectId : String) : Obs → Prop
  | .append input (.ok ()) => input.payload = .sideEffectStarted sideEffectId
  | _ => False

/-- A pass begins here. -/
def isPass : Obs → Bool
  | .takeUp _ => true
  | .takeUpBatch _ => true
  | _ => false

end Obs

/-- The records since the pass began. -/
def currentPass (obs : List Obs) : List Obs := obs.rtakeWhile fun o ↦ !o.isPass

/-- Policy allowed the call, or asked and was answered yes. -/
def Permitted (call : NormalizedToolCall) (pass : List Obs) : Prop :=
  (∃ o ∈ pass, o.Judged call .allow) ∨
    ∃ before o after, pass = before ++ o :: after ∧ o.Judged call .ask ∧
      ∃ o' ∈ after, o'.Granted call

/-- Everything an execution needs, in the pass that led to it. -/
structure Authorized (hooks : Bool) (sideEffectId : String) (call : NormalizedToolCall)
    (pass : List Obs) : Prop where
  /-- Before the intent the call was offered and permitted, and its intent was asked for. After the
  intent comes the start. -/
  begun : ∃ before intended between started after intent,
    pass = before ++ intended :: (between ++ started :: after) ∧
    (hooks = true → ∃ o ∈ before, o.Offered call) ∧ Permitted call before ∧
    Obs.intentFor call (.ok intent) ∈ before ∧ intended.Intended sideEffectId intent ∧
    started.Started sideEffectId
  /-- No verdict of the pass denies the call. -/
  undenied : ∀ o ∈ pass, ¬o.Judged call .deny

/-- **No unauthorized execution.** Every execution in the records was authorized in its pass. -/
def OnlyAuthorized (hooks : Bool) (obs : List Obs) : Prop :=
  ∀ (i : ℕ) (sideEffectId : String) (call : NormalizedToolCall)
    (answer : Except Thrown ToolExecutionResult),
    obs[i]? = some (.execute sideEffectId call answer) →
      Authorized hooks sideEffectId call (currentPass (obs.take i))

/-! ## Adding records -/

section Records

variable {hooks : Bool} {obs seg pass : List Obs} {call : NormalizedToolCall} {sideEffectId : String}

theorem currentPass_append (h : ∀ o ∈ seg, o.isPass = false) :
    currentPass (obs ++ seg) = currentPass obs ++ seg := by
  induction seg using List.reverseRecOn with
  | nil => simp
  | append_singleton seg o ih =>
    rw [List.forall_mem_append] at h
    have ho : o.isPass = false := h.2 o (List.mem_singleton_self o)
    rw [← List.append_assoc, currentPass, List.rtakeWhile_concat_pos _ _ _ (by simp [ho]),
      ← currentPass, ih h.1, List.append_assoc]

theorem currentPass_concat_pass {o : Obs} (h : o.isPass = true) : currentPass (obs ++ [o]) = [] :=
  List.rtakeWhile_concat_neg _ _ _ (by simp [h])

theorem OnlyAuthorized.append (hobs : OnlyAuthorized hooks obs)
    (hseg : ∀ o ∈ seg, o.kind ≠ .execution) : OnlyAuthorized hooks (obs ++ seg) := by
  intro i sideEffectId call answer hi
  by_cases hlt : i < obs.length
  · rw [List.getElem?_append_left hlt] at hi
    rw [List.take_append_of_le_length hlt.le]
    exact hobs i sideEffectId call answer hi
  · rw [List.getElem?_append_right (by omega)] at hi
    exact absurd rfl (hseg _ (List.mem_of_getElem? hi))

theorem OnlyAuthorized.execute (hobs : OnlyAuthorized hooks obs)
    (h : Authorized hooks sideEffectId call (currentPass obs))
    (answer : Except Thrown ToolExecutionResult) :
    OnlyAuthorized hooks (obs ++ [.execute sideEffectId call answer]) := by
  intro i sideEffectId' call' answer' hi
  by_cases hlt : i < obs.length
  · rw [List.getElem?_append_left hlt] at hi
    rw [List.take_append_of_le_length hlt.le]
    exact hobs i sideEffectId' call' answer' hi
  · rw [List.getElem?_append_right (by omega)] at hi
    obtain ⟨hzero, heq⟩ := List.getElem?_eq_some_iff.mp hi
    obtain rfl : i = obs.length := by rw [List.length_singleton] at hzero; omega
    rw [List.take_left]
    simp only [Nat.sub_self, List.getElem_cons_zero, Obs.execute.injEq] at heq
    obtain ⟨rfl, rfl, -⟩ := heq
    exact h

theorem not_judged_of_kind {o : Obs} {status : EvaluationStatus} (h : o.kind ≠ .evaluation) :
    ¬o.Judged call status := by
  cases o with
  | evaluate c answer => exact absurd rfl h
  | _ => exact id

theorem Permitted.append (h : Permitted call pass) : Permitted call (pass ++ seg) := by
  obtain ⟨o, ho, hj⟩ | ⟨before, o, after, rfl, hj, o', ho', hg⟩ := h
  · exact .inl ⟨o, List.mem_append_left _ ho, hj⟩
  · exact .inr ⟨before, o, after ++ seg, by simp, hj, o', List.mem_append_left _ ho', hg⟩

theorem Authorized.append (h : Authorized hooks sideEffectId call pass)
    (hseg : ∀ o ∈ seg, o.kind ≠ .evaluation) :
    Authorized hooks sideEffectId call (pass ++ seg) := by
  obtain ⟨⟨before, intended, between, started, after, intent, rfl, hb⟩, hd⟩ := h
  refine ⟨⟨before, intended, between, started, after ++ seg, intent, by simp, hb⟩, fun o ho ↦ ?_⟩
  exact (List.mem_append.mp ho).elim (hd o) fun ho ↦ not_judged_of_kind (hseg o ho)

end Records

/-! ## Inside a pass -/

section Pass

variable {hooks : Bool} {P : List Obs → Prop}

/-- So far only authorized executions, and of the records of the pass we know `P`. -/
def InPass (hooks : Bool) (P : List Obs → Prop) (obs : List Obs) : Prop :=
  OnlyAuthorized hooks obs ∧ P (currentPass obs)

/-- Knowledge of a pass that lasts until the next verdict. -/
structure Steady (P : List Obs → Prop) : Prop where
  append : ∀ {pass seg}, P pass → (∀ o ∈ seg, o.kind ≠ .evaluation) → P (pass ++ seg)

theorem Steady.and {P P' : List Obs → Prop} (h : Steady P) (h' : Steady P') :
    Steady fun pass ↦ P pass ∧ P' pass :=
  ⟨fun hp hseg ↦ ⟨h.append hp.1 hseg, h'.append hp.2 hseg⟩⟩

/-- The records that matter to a pass. -/
def passKinds : List Kind := [.takeUp, .takeUpBatch, .execution]

theorem isPass_eq_false {o : Obs} (h : o.kind ∉ passKinds) : o.isPass = false := by
  cases o with
  | takeUp call => exact absurd (List.mem_of_elem_eq_true rfl) h
  | takeUpBatch calls => exact absurd (List.mem_of_elem_eq_true rfl) h
  | _ => rfl

theorem InPass.append {P' : List Obs → Prop} {obs seg : List Obs} (h : InPass hooks P obs)
    (hseg : ∀ o ∈ seg, o.kind ∉ passKinds) (hP : P (currentPass obs) → P' (currentPass obs ++ seg)) :
    InPass hooks P' (obs ++ seg) := by
  refine ⟨h.1.append fun o ho hk ↦ hseg o ho (hk ▸ List.mem_of_elem_eq_true rfl), ?_⟩
  rw [currentPass_append fun o ho ↦ isPass_eq_false (hseg o ho)]
  exact hP h.2

variable {σ α : Type} {deps : TurnEngineDeps σ}

/-- Only authorized executions were recorded. -/
def Safe (hooks : Bool) (w : World σ) : Prop := OnlyAuthorized hooks w.obs

theorem Safe.leaves {ks : List Kind} {w w' : World σ} (h : Safe hooks w) (hl : Leaves deps ks w w')
    (hks : .execution ∉ ks) : Safe hooks w' := by
  obtain ⟨seg, hobs, hkinds⟩ := hl.obs
  rw [Safe, hobs]
  exact OnlyAuthorized.append h fun o ho hk ↦ hks (hk ▸ hkinds o ho)

/-- A function that records nothing of importance to a pass. -/
theorem inPass_footprint (deps : TurnEngineDeps σ) {ks : List Kind} {m : Engine σ α}
    (hm : Footprint deps ks m)
    (hks : ∀ k ∈ ks, k ∉ passKinds)
    (hP : ∀ {pass seg}, P pass → (∀ o ∈ seg, o.kind ∈ ks) → P (pass ++ seg)) :
    Triple (fun w ↦ InPass hooks P w.obs) m (fun _ w ↦ InPass hooks P w.obs)
      fun _ w ↦ Safe hooks w := by
  have hkeeps : Keeps (fun w ↦ InPass hooks P w.obs) m := hm.keeps fun hl hw ↦ by
    obtain ⟨seg, hobs, hkinds⟩ := hl.obs
    rw [hobs]
    exact hw.append (fun o ho ↦ hks _ (hkinds o ho)) fun hp ↦ hP hp hkinds
  exact hkeeps.conseq (fun _ h ↦ h) (fun _ _ h ↦ h) fun _ _ h ↦ h.1

theorem inPass_steady (deps : TurnEngineDeps σ) {ks : List Kind} {m : Engine σ α}
    (hm : Footprint deps ks m) (hP : Steady P)
    (hks : ∀ k ∈ ks, k ∉ .evaluation :: passKinds) :
    Triple (fun w ↦ InPass hooks P w.obs) m (fun _ w ↦ InPass hooks P w.obs)
      fun _ w ↦ Safe hooks w :=
  inPass_footprint deps hm (fun k hk hmem ↦ hks k hk (List.mem_cons_of_mem _ hmem)) fun hp hseg ↦
    hP.append hp fun o ho hk ↦ hks _ (hseg o ho) (hk ▸ List.mem_cons_self)

theorem inPass_ask {obs : Except Thrown α → Obs} {call : Call σ α} {P' : α → List Obs → Prop}
    (hcall : ∀ s, Answers deps s (obs (call s).1) (call s).2)
    (hkind : ∀ answer, (obs answer).kind ∉ passKinds)
    (hok : ∀ a pass, P pass → P' a (pass ++ [obs (.ok a)])) :
    Triple (fun w ↦ InPass hooks P w.obs) (ask obs call) (fun a w ↦ InPass hooks (P' a) w.obs)
      fun _ w ↦ Safe hooks w := by
  refine triple_ask hcall (r := fun _ ↦ OnlyAuthorized hooks) (fun a t ht ↦ ?_) fun e t ht ↦ ?_
  · refine ht.append (fun o ho ↦ ?_) fun hp ↦ hok a _ hp
    rw [List.mem_singleton.mp ho]
    exact hkind _
  · refine ht.1.append fun o ho ↦ ?_
    rw [List.mem_singleton.mp ho]
    exact fun hk ↦ hkind (.error e) (hk ▸ List.mem_of_elem_eq_true rfl)

end Pass

namespace TurnEngine

variable {σ : Type} {deps : TurnEngineDeps σ} {base : PersistBase} {P : List Obs → Prop}
  {call : NormalizedToolCall}

/-- The hooks let the call pass, if there are hooks. -/
def OfferedIn (hooks : Bool) (call : NormalizedToolCall) (pass : List Obs) : Prop :=
  hooks = true → ∃ o ∈ pass, o.Offered call

theorem OfferedIn.append {hooks : Bool} {pass seg : List Obs} (h : OfferedIn hooks call pass) :
    OfferedIn hooks call (pass ++ seg) :=
  fun hh ↦ (h hh).imp fun _ ho ↦ ho.imp_left (List.mem_append_left _)

/-- Everything before the intent. -/
structure Cleared (hooks : Bool) (call : NormalizedToolCall) (pass : List Obs) : Prop where
  offered : OfferedIn hooks call pass
  permitted : Permitted call pass
  undenied : ∀ o ∈ pass, ¬o.Judged call .deny

theorem preToolUse_offers (hP : Steady P) :
    Triple (fun w ↦ InPass deps.hooks.isSome P w.obs) (preToolUse deps base call)
      (fun blocked w ↦ InPass deps.hooks.isSome
        (fun pass ↦ P pass ∧ (blocked = false → OfferedIn deps.hooks.isSome call pass)) w.obs)
      fun _ w ↦ Safe deps.hooks.isSome w := by
  rw [preToolUse]
  cases hhooks : deps.hooks with
  | none => exact .pure fun w hw ↦ ⟨hw.1, hw.2, fun _ h ↦ by cases h⟩
  | some hooks =>
    refine .bind (s := fun gate w ↦ InPass true (fun pass ↦ P pass ∧
      (gate.blocked = false → OfferedIn true call pass)) w.obs) ?_ fun gate ↦ ?_
    · refine inPass_ask (fun _ ↦ ⟨hooks, hhooks, rfl⟩) (fun _ ↦ show Kind.hookGate ∉ passKinds by decide) fun gate pass hp ↦
        ⟨hP.append hp (by simp [Obs.kind]), ?_⟩
      exact fun hb _ ↦ ⟨_, List.mem_append_right _ (List.mem_singleton_self _), rfl, hb⟩
    · have hsteady : Steady fun pass ↦ P pass ∧
          (gate.blocked = false → OfferedIn true call pass) :=
        hP.and ⟨fun hp _ hb ↦ (hp hb).append⟩
      refine .bind (inPass_steady deps (footprint_persist .hookFired rfl (List.mem_singleton_self _))
        hsteady (by decide)) fun _ ↦ ?_
      split
      · rename_i hblocked
        refine .bind (inPass_steady deps (footprint_sayOutput (List.mem_singleton_self _)) hsteady
          (by decide)) fun _ ↦ .pure fun w hw ↦ ?_
        exact ⟨hw.1, hw.2.1, fun h ↦ by cases h⟩
      · rename_i hblocked
        exact .pure fun w hw ↦ ⟨hw.1, hw.2.1, fun _ ↦ hw.2.2 (Bool.not_eq_true _ ▸ hblocked)⟩

/-- What is known of a call that policy asked about, up to the answer. -/
def Asked (hooks : Bool) (call : NormalizedToolCall) (pass : List Obs) : Prop :=
  OfferedIn hooks call pass ∧ (∀ o ∈ pass, ¬o.Judged call .deny) ∧
    ∃ before o after, pass = before ++ o :: after ∧ o.Judged call .ask

theorem undenied_append {pass seg : List Obs} (h : ∀ o ∈ pass, ¬o.Judged call .deny)
    (hseg : ∀ o ∈ seg, o.kind ≠ .evaluation) : ∀ o ∈ pass ++ seg, ¬o.Judged call .deny :=
  fun o ho ↦ (List.mem_append.mp ho).elim (h o) fun ho ↦ not_judged_of_kind (hseg o ho)

theorem steady_asked {hooks : Bool} : Steady (Asked hooks call) := by
  refine ⟨?_⟩
  rintro pass seg ⟨hoff, hund, before, o, after, rfl, ho⟩ hseg
  exact ⟨hoff.append, undenied_append hund hseg, before, o, after ++ seg, by simp, ho⟩

theorem steady_cleared {hooks : Bool} : Steady (Cleared hooks call) :=
  ⟨fun hp hseg ↦ ⟨hp.offered.append, hp.permitted.append, undenied_append hp.undenied hseg⟩⟩

theorem Asked.granted {hooks : Bool} {pass : List Obs} {o : Obs} (h : Asked hooks call pass)
    (ho : o.Granted call) (hk : o.kind ≠ .evaluation) : Cleared hooks call (pass ++ [o]) := by
  obtain ⟨hoff, hund, before, question, after, rfl, hq⟩ := h
  refine ⟨hoff.append, .inr ⟨before, question, after ++ [o], by simp, hq, o, by simp, ho⟩, ?_⟩
  refine undenied_append hund fun o' ho' ↦ ?_
  rwa [List.mem_singleton.mp ho']

/-- How admission ends, as to what an execution needs. -/
def Admits (hooks : Bool) (call : NormalizedToolCall) (admission : Admission) (w : World σ) : Prop :=
  match admission with
  | .admitted => InPass hooks (Cleared hooks call) w.obs
  | _ => Safe hooks w

/-- A grant after the question makes the call permitted. -/
theorem resolveApproval_grants {scope : ApprovalScope} :
    Triple (fun w ↦ InPass deps.hooks.isSome (Asked deps.hooks.isSome call) w.obs)
      (resolveApproval deps base call true (some scope))
      (fun _ w ↦ InPass deps.hooks.isSome (Cleared deps.hooks.isSome call) w.obs)
      fun _ w ↦ Safe deps.hooks.isSome w := by
  rw [resolveApproval]
  refine .bind (s := fun _ w ↦
    InPass deps.hooks.isSome (Cleared deps.hooks.isSome call) w.obs) ?_ fun _ ↦ ?_
  · refine inPass_ask (fun _ ↦ rfl) (fun _ ↦ show Kind.approvalResolved ∉ passKinds by decide) ?_
    exact fun _ pass hp ↦ hp.granted ⟨scope, rfl⟩ (show Kind.approvalResolved ≠ .evaluation by decide)
  · refine .bind (inPass_steady deps (footprint_moveMachine (List.mem_singleton_self _)) steady_cleared
      (by decide)) fun _ ↦ ?_
    exact inPass_steady deps (footprint_persistState (List.mem_singleton_self _)) steady_cleared
      (by decide)

/-- A function that is safe whatever it answers. -/
theorem safe_footprint {ks : List Kind} {α : Type} {m : Engine σ α} (hm : Footprint deps ks m)
    (hks : .execution ∉ ks) :
    Triple (fun w ↦ Safe deps.hooks.isSome w) m (fun _ w ↦ Safe deps.hooks.isSome w)
      fun _ w ↦ Safe deps.hooks.isSome w :=
  hm.keeps fun hl hw ↦ hw.leaves hl hks

theorem askApproval_admits {verdict : ToolEvaluation} :
    Triple (fun w ↦ InPass deps.hooks.isSome (Asked deps.hooks.isSome call) w.obs)
      (askApproval deps base call verdict) (Admits deps.hooks.isSome call)
      fun _ w ↦ Safe deps.hooks.isSome w := by
  have hm : ∀ {α : Type} {m : Engine σ α}, Footprint deps [.moved, .stateChanged, .approvalRequested,
      .lifecycle, .approval, .signal] m →
      Triple (fun w ↦ InPass deps.hooks.isSome (Asked deps.hooks.isSome call) w.obs) m
        (fun _ w ↦ InPass deps.hooks.isSome (Asked deps.hooks.isSome call) w.obs)
        fun _ w ↦ Safe deps.hooks.isSome w := fun hm ↦ inPass_steady deps hm steady_asked (by decide)
  rw [askApproval]
  refine .bind (hm (footprint_moveMachine (by decide))) fun _ ↦ ?_
  refine .bind (hm (footprint_persistState (by decide))) fun _ ↦ ?_
  refine .bind (hm (footprint_persist .approvalRequested rfl (by decide))) fun _ ↦ ?_
  refine .bind (hm (footprint_fireLifecycle (by decide))) fun _ ↦ ?_
  refine .bind (hm (footprint_requestApproval (by decide))) fun decision ↦ ?_
  refine .bind (hm (footprint_signalAborted (by decide))) fun aborted ↦ ?_
  split
  · exact .pure fun w hw ↦ hw.1
  · cases decision with
    | deferred reason => exact .pure fun w hw ↦ hw.1
    | approved scope => exact .bind resolveApproval_grants fun _ ↦ .pure fun w hw ↦ hw
    | denied reason =>
      refine Triple.conseq (s := Safe deps.hooks.isSome) ?_ (fun w hw ↦ hw.1) (fun _ _ h ↦ h)
        fun _ _ h ↦ h
      refine .bind (safe_footprint footprint_resolveApproval (by decide)) fun _ ↦ ?_
      refine .bind (safe_footprint (footprint_recordToolDenial (List.mem_singleton_self _))
        (by decide)) fun _ ↦ ?_
      exact .bind (safe_footprint (footprint_sayOutput (List.mem_singleton_self _)) (by decide))
        fun _ ↦ .pure fun w hw ↦ hw

/-- What a verdict says of its call. -/
def Verdicted (hooks : Bool) (call : NormalizedToolCall) (verdict : ToolEvaluation)
    (pass : List Obs) : Prop :=
  match verdict.status with
  | .deny => True
  | .ask => Asked hooks call pass
  | .allow => Cleared hooks call pass

theorem steady_verdicted {hooks : Bool} {verdict : ToolEvaluation} :
    Steady (Verdicted hooks call verdict) := by
  refine ⟨fun {pass seg} hp hseg ↦ ?_⟩
  rw [Verdicted] at hp ⊢
  split at hp
  · trivial
  · exact steady_asked.append hp hseg
  · exact steady_cleared.append hp hseg

theorem verdicted_concat {hooks : Bool} {pass : List Obs} (verdict : ToolEvaluation)
    (hoff : OfferedIn hooks call pass) (hund : ∀ o ∈ pass, ¬o.Judged call .deny) :
    Verdicted hooks call verdict (pass ++ [.evaluate call (.ok verdict)]) := by
  have hund' : verdict.status ≠ .deny →
      ∀ o ∈ pass ++ [.evaluate call (.ok verdict)], ¬o.Judged call .deny := fun hs o ho ↦
    (List.mem_append.mp ho).elim (hund o) fun ho ↦ by
      rw [List.mem_singleton.mp ho]
      exact fun hj ↦ hs hj.2
  rw [Verdicted]
  split
  · trivial
  · rename_i hs
    exact ⟨hoff.append, hund' (by simp [hs]), pass, _, [], rfl, rfl, hs⟩
  · rename_i hs
    exact ⟨hoff.append, .inl ⟨_, List.mem_append_right _ (List.mem_singleton_self _), rfl, hs⟩,
      hund' (by simp [hs])⟩

theorem judge_admits :
    Triple (fun w ↦ InPass deps.hooks.isSome
        (fun pass ↦ (∀ o ∈ pass, ¬o.Judged call .deny) ∧ OfferedIn deps.hooks.isSome call pass) w.obs)
      (judge deps base call) (Admits deps.hooks.isSome call)
      fun _ w ↦ Safe deps.hooks.isSome w := by
  rw [judge]
  refine .bind (s := fun verdict w ↦
    InPass deps.hooks.isSome (Verdicted deps.hooks.isSome call verdict) w.obs) ?_ fun verdict ↦ ?_
  · exact inPass_ask (fun _ ↦ rfl) (fun _ ↦ show Kind.evaluation ∉ passKinds by decide) fun verdict pass hp ↦
      verdicted_concat verdict hp.2 hp.1
  · refine .bind (inPass_steady deps (footprint_persistVerdict (List.mem_singleton_self _))
      steady_verdicted (by decide)) fun _ ↦ ?_
    cases hs : verdict.status with
    | deny =>
      refine Triple.conseq (s := Safe deps.hooks.isSome) ?_ (fun w hw ↦ hw.1) (fun _ _ h ↦ h)
        fun _ _ h ↦ h
      refine .bind (safe_footprint (footprint_recordToolDenial (List.mem_singleton_self _))
        (by decide)) fun _ ↦ ?_
      refine .bind (safe_footprint (footprint_fireLifecycle (List.mem_singleton_self _))
        (by decide)) fun _ ↦ ?_
      exact .bind (safe_footprint (footprint_sayOutput (List.mem_singleton_self _)) (by decide))
        fun _ ↦ .pure fun w hw ↦ hw
    | ask =>
      refine askApproval_admits.conseq (fun w hw ↦ ⟨hw.1, ?_⟩) (fun _ _ h ↦ h) fun _ _ h ↦ h
      simpa only [Verdicted, hs] using hw.2
    | allow =>
      refine .pure fun w hw ↦ ⟨hw.1, ?_⟩
      simpa only [Verdicted, hs] using hw.2

theorem passGates_admits :
    Triple (fun w ↦ InPass deps.hooks.isSome (fun pass ↦ ∀ o ∈ pass, ¬o.Judged call .deny) w.obs)
      (passGates deps base call) (Admits deps.hooks.isSome call)
      fun _ w ↦ Safe deps.hooks.isSome w := by
  rw [passGates]
  refine .bind (preToolUse_offers ⟨undenied_append⟩) fun blocked ↦ ?_
  cases blocked with
  | true => exact .pure fun w hw ↦ hw.1
  | false =>
    exact judge_admits.conseq (fun w hw ↦ ⟨hw.1, hw.2.1, hw.2.2 rfl⟩) (fun _ _ h ↦ h) fun _ _ h ↦ h

/-! ## The intent and the start -/

/-- The intent of a cleared call was appended. -/
def IntendedIn (hooks : Bool) (sideEffectId : String) (call : NormalizedToolCall)
    (pass : List Obs) : Prop :=
  (∀ o ∈ pass, ¬o.Judged call .deny) ∧ ∃ before intended after intent,
    pass = before ++ intended :: after ∧ Cleared hooks call before ∧
      Obs.intentFor call (.ok intent) ∈ before ∧ intended.Intended sideEffectId intent

theorem steady_intendedIn {hooks : Bool} {sideEffectId : String} :
    Steady (IntendedIn hooks sideEffectId call) := by
  refine ⟨?_⟩
  rintro pass seg ⟨hund, before, intended, after, intent, rfl, h⟩ hseg
  exact ⟨undenied_append hund hseg, before, intended, after ++ seg, intent, by simp, h⟩

theorem IntendedIn.started {hooks : Bool} {sideEffectId : String} {pass : List Obs} {o : Obs}
    (h : IntendedIn hooks sideEffectId call pass) (ho : o.Started sideEffectId)
    (hk : o.kind ≠ .evaluation) : Authorized hooks sideEffectId call (pass ++ [o]) := by
  obtain ⟨hund, before, intended, after, intent, rfl, hcleared, hfor, hint⟩ := h
  refine ⟨⟨before, intended, after, o, [], intent, by simp, hcleared.offered, hcleared.permitted,
    hfor, hint, ho⟩, undenied_append hund fun o' ho' ↦ ?_⟩
  rwa [List.mem_singleton.mp ho']

/-- What is known after the intent step, beside what was known before it. -/
def Begins (hooks : Bool) (P : List Obs → Prop) (call : NormalizedToolCall)
    (begun : Option String) (w : World σ) : Prop :=
  InPass hooks (fun pass ↦ P pass ∧
    ∀ sideEffectId, begun = some sideEffectId → Authorized hooks sideEffectId call pass) w.obs

theorem beginSideEffect_begins (hP : Steady P)
    (hcleared : ∀ {pass}, P pass → Cleared deps.hooks.isSome call pass) :
    Triple (fun w ↦ InPass deps.hooks.isSome P w.obs) (beginSideEffect deps base call)
      (Begins deps.hooks.isSome P call) fun _ w ↦ Safe deps.hooks.isSome w := by
  rw [beginSideEffect]
  refine .bind (s := fun intent w ↦ InPass deps.hooks.isSome
    (fun pass ↦ P pass ∧ Obs.intentFor call (.ok intent) ∈ pass) w.obs) ?_ fun intent ↦ ?_
  · exact inPass_ask (fun _ ↦ rfl) (fun _ ↦ show Kind.intentFor ∉ passKinds by decide) fun intent pass hp ↦
      ⟨hP.append hp (by simp [Obs.kind]), by simp⟩
  refine .bind (inPass_footprint deps (show Footprint deps [] _ from footprint_draw _) (by simp) fun hp hseg ↦
    ⟨hP.append hp.1 (by simp_all), List.mem_append_left _ hp.2⟩) fun sideEffectId ↦ ?_
  refine .bind (s := fun _ w ↦ InPass deps.hooks.isSome
    (fun pass ↦ P pass ∧ IntendedIn deps.hooks.isSome sideEffectId call pass) w.obs) ?_ fun _ ↦ ?_
  · refine inPass_ask (fun _ ↦ rfl) (fun _ ↦ show Kind.intent ∉ passKinds by decide) fun _ pass hp ↦ ?_
    have hk : ∀ {o : Obs}, o.kind = .intent → ∀ o' ∈ [o], o'.kind ≠ .evaluation := fun ho o' ho' ↦ by
      rw [List.mem_singleton.mp ho', ho]; decide
    exact ⟨hP.append hp.1 (hk rfl), undenied_append (hcleared hp.1).undenied (hk rfl), pass, _, [], intent,
      rfl, hcleared hp.1, hp.2, rfl⟩
  have hsteady : Steady fun pass ↦ P pass ∧ IntendedIn deps.hooks.isSome sideEffectId call pass :=
    hP.and steady_intendedIn
  refine .bind (inPass_steady deps (footprint_mayExecute (List.mem_singleton_self _)) hsteady (by decide)) fun may ↦ ?_
  split
  · refine .bind (s := fun _ ↦ Begins deps.hooks.isSome P call (some sideEffectId)) ?_ fun _ ↦ ?_
    · refine inPass_ask (fun _ ↦ rfl) (fun _ ↦ show Kind.started ∉ passKinds by decide) fun _ pass hp ↦ ?_
      refine ⟨hP.append hp.1 (by simp [Obs.kind, EventPayload.kind]), fun id hid ↦ ?_⟩
      cases hid
      exact hp.2.started rfl (show Kind.started ≠ .evaluation by decide)
    · exact .pure fun w hw ↦ hw
  · refine .bind (inPass_steady deps (footprint_persist .settled rfl (List.mem_singleton_self _)) hsteady
      (by decide)) fun _ ↦ ?_
    refine .bind (inPass_steady deps (footprint_sayOutput (List.mem_singleton_self _)) hsteady
      (by decide)) fun _ ↦ ?_
    exact .pure fun w hw ↦ ⟨hw.1, hw.2.1, fun _ h ↦ by cases h⟩

/-! ## The two paths -/

theorem concluded_of_safe {hooks : Bool} {phase : ToolPhase} {w : World σ} (h : Safe hooks w) :
    Concluded (Safe hooks) (Safe hooks) phase w := by
  cases phase <;> exact h

/-- An authorized execution, whatever comes of it. -/
theorem execute_safe {hooks : Bool} {sideEffectId : String} :
    Triple (fun w ↦ InPass hooks (Authorized hooks sideEffectId call) w.obs)
      (execute deps sideEffectId call) (fun _ w ↦ Safe hooks w) fun _ w ↦ Safe hooks w :=
  triple_ask (fun _ ↦ rfl) (p := InPass hooks (Authorized hooks sideEffectId call))
    (q := fun _ ↦ OnlyAuthorized hooks) (r := fun _ ↦ OnlyAuthorized hooks)
    (fun _ _ ht ↦ ht.1.execute ht.2 _) fun _ _ ht ↦ ht.1.execute ht.2 _

theorem runOneCall_safe :
    Triple (Safe deps.hooks.isSome) (runOneCall deps base call)
      (Concluded (Safe deps.hooks.isSome) (Safe deps.hooks.isSome))
      fun _ ↦ Safe deps.hooks.isSome := by
  have hdone : ∀ phase, Triple (Safe deps.hooks.isSome) (pure phase : Engine σ ToolPhase)
      (Concluded (Safe deps.hooks.isSome) (Safe deps.hooks.isSome))
      fun _ ↦ Safe deps.hooks.isSome := fun _ ↦ .pure fun _ ↦ concluded_of_safe
  rw [runOneCall]
  refine .bind (s := fun _ w ↦ InPass deps.hooks.isSome
    (fun pass ↦ ∀ o ∈ pass, ¬o.Judged call .deny) w.obs) (fun w hw ↦ ?_) fun _ ↦ ?_
  · change InPass _ _ (w.record (.takeUp call)).obs
    rw [World.obs_record, InPass, currentPass_concat_pass rfl]
    exact ⟨hw.append (by simp [Obs.kind]), by simp⟩
  refine .bind (inPass_steady deps footprint_takeUp ⟨undenied_append⟩ (by decide)) fun phase ↦ ?_
  cases phase with
  | some phase => exact (hdone phase).conseq (fun _ hw ↦ hw.1) (fun _ _ h ↦ h) fun _ _ h ↦ h
  | none =>
    refine .bind passGates_admits fun admission ↦ ?_
    cases admission with
    | stop phase => exact hdone phase
    | refused => exact hdone .go
    | admitted =>
      refine .bind (beginSideEffect_begins steady_cleared id) fun begun ↦ ?_
      cases begun with
      | none => exact (hdone .go).conseq (fun _ hw ↦ hw.1) (fun _ _ h ↦ h) fun _ _ h ↦ h
      | some sideEffectId =>
        refine Triple.conseq (s := fun w ↦ InPass deps.hooks.isSome
          (Authorized deps.hooks.isSome sideEffectId call) w.obs) ?_
          (fun w hw ↦ ⟨hw.1, hw.2.2 _ rfl⟩) (fun _ _ h ↦ h) fun _ _ h ↦ h
        refine .bind execute_safe fun result ↦ ?_
        refine .bind (safe_footprint (footprint_settle (List.mem_singleton_self _)) (by decide))
          fun _ ↦ ?_
        refine .bind (safe_footprint footprint_recordResult (by decide)) fun hookStop ↦ ?_
        exact (safe_footprint (footprint_afterResults (List.mem_singleton_self _))
          (by decide)).conseq (fun _ h ↦ h) (fun _ _ ↦ concluded_of_safe) fun _ _ h ↦ h

/-- What is known of a batch while its calls are started: every verdict of the pass allows, every
call left was judged, and every call started is authorized. -/
structure Starting (hooks : Bool) (items : List (NormalizedToolCall × ToolEvaluation))
    (cleared : List (NormalizedToolCall × String)) (pass : List Obs) : Prop where
  judged : ∀ x ∈ items, ∃ o ∈ pass, o.Judged x.1 .allow
  undenied : ∀ o ∈ pass, ∀ call, ¬o.Judged call .deny
  authorized : ∀ x ∈ cleared, Authorized hooks x.2 x.1 pass

theorem steady_starting {hooks : Bool} {items : List (NormalizedToolCall × ToolEvaluation)}
    {cleared : List (NormalizedToolCall × String)} : Steady (Starting hooks items cleared) :=
  ⟨fun hp hseg ↦ ⟨fun x hx ↦ (hp.judged x hx).imp fun _ ho ↦ ho.imp_left (List.mem_append_left _),
    fun o ho call ↦ undenied_append (fun o ho ↦ hp.undenied o ho call) hseg o ho,
    fun x hx ↦ (hp.authorized x hx).append hseg⟩⟩

theorem steady_offeredIn {hooks : Bool} : Steady (OfferedIn hooks call) := ⟨fun hp _ ↦ hp.append⟩

theorem Starting.tail {hooks : Bool} {item : NormalizedToolCall × ToolEvaluation}
    {items : List (NormalizedToolCall × ToolEvaluation)}
    {cleared : List (NormalizedToolCall × String)} {pass : List Obs}
    (h : Starting hooks (item :: items) cleared pass) : Starting hooks items cleared pass :=
  ⟨fun x hx ↦ h.judged x (List.mem_cons_of_mem _ hx), h.undenied, h.authorized⟩

/-- How the first phase of a batch ends. -/
def BatchStarted (hooks : Bool) (cleared : List (NormalizedToolCall × String))
    (started : Except ToolPhase (List (NormalizedToolCall × String))) (w : World σ) : Prop :=
  match started with
  | .ok more => InPass hooks (Starting hooks [] (cleared ++ more)) w.obs
  | .error _ => Safe hooks w

theorem startBatch_starts (items : List (NormalizedToolCall × ToolEvaluation))
    (cleared : List (NormalizedToolCall × String)) :
    Triple (fun w ↦ InPass deps.hooks.isSome (Starting deps.hooks.isSome items cleared) w.obs)
      (startBatch deps base items) (BatchStarted deps.hooks.isSome cleared)
      fun _ ↦ Safe deps.hooks.isSome := by
  induction items generalizing cleared with
  | nil =>
    refine .pure fun w hw ↦ ?_
    rwa [BatchStarted, List.append_nil]
  | cons item items ih =>
    obtain ⟨call, verdict⟩ := item
    -- A call that is not started leaves what is known of the others.
    have hskip : Triple (fun w ↦ InPass deps.hooks.isSome
        (Starting deps.hooks.isSome ((call, verdict) :: items) cleared) w.obs)
        (startBatch deps base items) (BatchStarted deps.hooks.isSome cleared)
        fun _ ↦ Safe deps.hooks.isSome :=
      (ih cleared).conseq (fun w hw ↦ ⟨hw.1, hw.2.tail⟩) (fun _ _ h ↦ h) fun _ _ h ↦ h
    rw [startBatch]
    refine .bind (inPass_steady deps footprint_takeUp steady_starting (by decide)) fun phase ↦ ?_
    cases phase with
    | some phase => exact .pure fun w hw ↦ hw.1
    | none =>
      refine .bind (preToolUse_offers steady_starting) fun blocked ↦ ?_
      cases blocked with
      | true => exact hskip.conseq (fun w hw ↦ ⟨hw.1, hw.2.1⟩) (fun _ _ h ↦ h) fun _ _ h ↦ h
      | false =>
        have hsteady : Steady fun pass ↦
            Starting deps.hooks.isSome ((call, verdict) :: items) cleared pass ∧
              OfferedIn deps.hooks.isSome call pass := steady_starting.and steady_offeredIn
        refine Triple.conseq (s := fun w ↦ InPass deps.hooks.isSome (fun pass ↦
          Starting deps.hooks.isSome ((call, verdict) :: items) cleared pass ∧
            OfferedIn deps.hooks.isSome call pass) w.obs) ?_
          (fun w hw ↦ ⟨hw.1, hw.2.1, hw.2.2 rfl⟩) (fun _ _ h ↦ h) fun _ _ h ↦ h
        refine .bind (inPass_steady deps (footprint_persistVerdict (List.mem_singleton_self _)) hsteady
          (by decide)) fun _ ↦ ?_
        refine .bind (beginSideEffect_begins hsteady fun hp ↦ ⟨hp.2,
          .inl (hp.1.judged _ List.mem_cons_self), fun o ho ↦ hp.1.undenied o ho call⟩)
          fun begun ↦ ?_
        cases begun with
        | none => exact hskip.conseq (fun w hw ↦ ⟨hw.1, hw.2.1.1⟩) (fun _ _ h ↦ h) fun _ _ h ↦ h
        | some sideEffectId =>
          refine .bind ((ih (cleared ++ [(call, sideEffectId)])).conseq (fun w hw ↦ ⟨hw.1,
            hw.2.1.1.tail.judged, hw.2.1.1.undenied, fun x hx ↦ ?_⟩) (fun _ _ h ↦ h) fun _ _ h ↦ h)
            fun started ↦ ?_
          · obtain hx | hx := List.mem_append.mp hx
            · exact hw.2.1.1.authorized x hx
            · rw [List.mem_singleton.mp hx]
              exact hw.2.2 _ rfl
          · cases started with
            | error phase => exact .pure fun w hw ↦ hw
            | ok more =>
              refine .pure fun w hw ↦ ?_
              simpa only [BatchStarted, List.append_assoc, List.singleton_append] using hw

def evaluationRecord (x : NormalizedToolCall × Except Thrown ToolEvaluation) : Obs :=
  .evaluate x.1 x.2

/-- The pass holds these evaluations and nothing else. -/
def Evaluated (hooks : Bool) (done : List (NormalizedToolCall × Except Thrown ToolEvaluation))
    (w : World σ) : Prop :=
  InPass hooks (· = done.map evaluationRecord) w.obs

theorem evaluate_evaluated {hooks : Bool}
    (done : List (NormalizedToolCall × Except Thrown ToolEvaluation)) :
    Triple (Evaluated hooks done) (evaluate deps call)
      (fun verdict ↦ Evaluated hooks (done ++ [(call, .ok verdict)]))
      fun e ↦ Evaluated hooks (done ++ [(call, .error e)]) := by
  have hconcat : ∀ answer obs, InPass hooks (· = done.map evaluationRecord) obs →
      InPass hooks (· = (done ++ [(call, answer)]).map evaluationRecord)
        (obs ++ [.evaluate call answer]) := fun answer obs h ↦ by
    refine h.append (fun o ho ↦ ?_) fun hp ↦ by rw [hp, List.map_append]; rfl
    rw [List.mem_singleton.mp ho]
    exact show Kind.evaluation ∉ passKinds by decide
  refine ask_rule (fun _ ↦ rfl) (fun verdict hw ha ↦ ?_) fun e hw ha ↦ ?_
  · rw [Evaluated, ha.obs]
    exact hconcat _ _ hw
  · rw [Evaluated, ha.obs]
    exact hconcat _ _ hw

/-- The verdicts of a batch are what its pass holds first. -/
theorem evaluateAll_evaluated {hooks : Bool} (calls : List NormalizedToolCall) :
    Triple (Evaluated hooks []) (runAll (calls.map (evaluate deps)))
      (fun verdicts w ↦ verdicts.length = calls.length ∧
        Evaluated hooks (calls.zip (verdicts.map .ok)) w) fun _ w ↦ Safe hooks w := by
  refine (Triple.runAll (d := Evaluated hooks) fun done call _ _ ↦
    evaluate_evaluated done).conseq (fun _ hw ↦ hw) (fun _ _ hw ↦ hw) fun _ _ hw ↦ ?_
  obtain ⟨rest, -, -, hin⟩ := hw
  exact hin.1

/-- When policy allows every call, a batch starts with what its first phase needs. -/
theorem starting_of_verdicts {hooks : Bool} {calls : List NormalizedToolCall}
    {verdicts : List ToolEvaluation} {pass : List Obs}
    (hallow : ∀ v ∈ verdicts, v.status = .allow)
    (hpass : pass = (calls.zip (verdicts.map .ok)).map evaluationRecord) :
    Starting hooks (calls.zip verdicts) [] pass := by
  subst hpass
  have hzip : calls.zip (verdicts.map Except.ok) =
      (calls.zip verdicts).map fun x ↦ (x.1, (.ok x.2 : Except Thrown ToolEvaluation)) := by
    rw [List.zip_map_right]
    rfl
  refine ⟨fun x hx ↦ ⟨.evaluate x.1 (.ok x.2), ?_, rfl, ?_⟩, fun o ho call hj ↦ ?_, by simp⟩
  · rw [hzip, List.map_map]
    exact List.mem_map_of_mem hx
  · exact hallow _ (List.of_mem_zip hx).2
  · rw [hzip, List.map_map] at ho
    obtain ⟨x, hx, rfl⟩ := List.mem_map.mp ho
    have hstatus := hallow _ (List.of_mem_zip hx).2
    exact absurd (hstatus.symm.trans hj.2) (by decide)

/-- All executions of a batch are authorized. -/
theorem executeAll_safe (cleared : List (NormalizedToolCall × String)) :
    Triple (fun w ↦ InPass deps.hooks.isSome (Starting deps.hooks.isSome [] cleared) w.obs)
      (runAll (cleared.map fun x ↦ execute deps x.2 x.1)) (fun _ ↦ Safe deps.hooks.isSome)
      fun _ ↦ Safe deps.hooks.isSome := by
  have hone : ∀ x ∈ cleared, ∀ answer obs,
      InPass deps.hooks.isSome (Starting deps.hooks.isSome [] cleared) obs →
      InPass deps.hooks.isSome (Starting deps.hooks.isSome [] cleared)
        (obs ++ [.execute x.2 x.1 answer]) := fun x hx answer obs h ↦ by
    refine ⟨h.1.execute (h.2.authorized x hx) answer, ?_⟩
    rw [currentPass_append (by simp [Obs.isPass])]
    exact steady_starting.append h.2 (by simp [Obs.kind])
  have hall := Triple.runAll (l := cleared) (f := fun x ↦ execute deps x.2 x.1)
    (d := fun _ w ↦ InPass deps.hooks.isSome (Starting deps.hooks.isSome [] cleared) w.obs)
    fun before x after hx ↦ triple_ask (fun _ ↦ rfl) (q := fun _ ↦ InPass deps.hooks.isSome
      (Starting deps.hooks.isSome [] cleared)) (fun _ obs h ↦ hone x (by simp [← hx]) _ obs h)
      fun _ obs h ↦ hone x (by simp [← hx]) _ obs h
  refine hall.conseq (fun _ hw ↦ hw) (fun _ _ hw ↦ hw.2.1) fun _ _ hw ↦ ?_
  obtain ⟨rest, -, -, hin⟩ := hw
  exact hin.1

theorem runParallelBatch_safe (calls : List NormalizedToolCall) :
    Triple (Safe deps.hooks.isSome) (runParallelBatch deps base calls)
      (Concluded (Safe deps.hooks.isSome) (Safe deps.hooks.isSome))
      fun _ ↦ Safe deps.hooks.isSome := by
  rw [runParallelBatch]
  refine .bind (s := fun _ ↦ Evaluated deps.hooks.isSome []) (fun w hw ↦ ?_) fun _ ↦ ?_
  · change InPass _ _ (w.record (.takeUpBatch calls)).obs
    rw [World.obs_record, InPass, currentPass_concat_pass rfl]
    exact ⟨hw.append (by simp [Obs.kind]), rfl⟩
  refine .bind (evaluateAll_evaluated calls) fun verdicts ↦ ?_
  split
  · rename_i hallow
    simp only [List.all_eq_true, decide_eq_true_eq] at hallow
    refine .bind ((startBatch_starts _ []).conseq
      (fun w hw ↦ ⟨hw.2.1, starting_of_verdicts hallow hw.2.2⟩) (fun _ _ h ↦ h) fun _ _ h ↦ h)
      fun started ↦ ?_
    cases started with
    | error phase => exact .pure fun w hw ↦ concluded_of_safe hw
    | ok cleared =>
      refine .bind (executeAll_safe cleared) fun results ↦ ?_
      refine .bind (safe_footprint (footprint_settleBatch _) (by decide)) fun hookStop ↦ ?_
      exact (safe_footprint (footprint_afterResults (List.mem_singleton_self _))
        (by decide)).conseq (fun _ h ↦ h) (fun _ _ ↦ concluded_of_safe) fun _ _ h ↦ h
  · exact (runSerially_rule (fun _ ↦ .rfl) (fun _ ↦ runOneCall_safe) calls).conseq (fun _ hw ↦ hw.2.1)
      (fun _ _ h ↦ h) fun _ _ h ↦ h

theorem safe_rules : CallRules deps base (Safe deps.hooks.isSome) (Safe deps.hooks.isSome) where
  weaken hw := hw
  go_outer hl hw := hw.leaves hl (by decide)
  stop_outer hl hw := hw.leaves hl (by decide)
  one _ := runOneCall_safe
  batch := runParallelBatch_safe

/-- **Nothing executes without leave**, in any turn, run or resumed, in any environment. -/
theorem enter_onlyAuthorized (deps : TurnEngineDeps σ) (input : TurnInput) (env : σ) (drawn : ℕ) :
    OnlyAuthorized deps.hooks.isSome (after (enter deps input (initial env drawn))).obs := by
  refine enter_holds (R := Safe deps.hooks.isSome) (fun ho ↦ ?_) (fun _ ↦ safe_rules) input
  have hnil : OnlyAuthorized deps.hooks.isSome [] := fun i _ _ _ hi ↦ by simp at hi
  refine hnil.append fun o hmem hk ↦ ?_
  obtain ⟨e, he, rfl⟩ := List.mem_map.mp hmem
  exact absurd (hk ▸ ho.kinds e he) (by decide)

end TurnEngine

end QwenHarness
