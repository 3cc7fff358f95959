import QwenHarness.Runtime.Drive

/-!
# What a turn may use

Two loops drive a turn: rounds of the model with calls of tools between them, and the attempts of
one request. Whatever the provider, the tools and the hooks answer, both end by themselves, since
the budget is asked before every request and before every call, and the retry policy before every
further attempt. The first attempt of a request is not put to the policy.
-/

namespace QwenHarness

open Effect

/-! ## What was used -/

def Obs.isExecution : Obs → Bool
  | .execute _ _ _ => true
  | _ => false

/-- How many times a tool was executed. -/
def executions (obs : List Obs) : ℕ := obs.countP Obs.isExecution

/-- The attempts of each round so far, with one more record. A round starts with its request. -/
def tally (rounds : List ℕ) : Obs → List ℕ
  | .append input _ =>
    match input.payload with
    | .modelRequestStarted _ _ _ => rounds ++ [0]
    | _ => rounds
  | .stream _ _ => rounds.dropLast ++ [rounds.getLastD 0 + 1]
  | _ => rounds

/-- The attempts of each round. -/
def attempts (obs : List Obs) : List ℕ := obs.foldl tally []

/-- The attempts that a policy allows for one request. -/
def RetryPolicy.allowed (policy : RetryPolicy) : ℕ := max 1 policy.maxAttempts

/-- The rounds, the attempts of each of them, and the executions are within the limits. -/
structure WithinLimits (limits : BudgetLimits) (policy : RetryPolicy) (obs : List Obs) : Prop where
  rounds : (attempts obs).length ≤ limits.maxModelCallsPerTurn
  attempts : ∀ n ∈ attempts obs, n ≤ policy.allowed
  executions : executions obs ≤ limits.maxToolCallsPerTurn

section Used

variable {obs seg : List Obs} {o : Obs} {rounds : List ℕ}

theorem executions_append (h : ∀ o ∈ seg, o.kind ≠ .execution) :
    executions (obs ++ seg) = executions obs := by
  have hzero : seg.countP Obs.isExecution = 0 := List.countP_eq_zero.mpr fun o ho htrue ↦ by
    rw [Obs.isExecution.eq_def] at htrue
    split at htrue
    · exact h _ ho rfl
    · cases htrue
  rw [executions, List.countP_append, hzero, Nat.add_zero, executions]

theorem tally_eq (hr : o.kind ≠ .requestStarted) (hs : o.kind ≠ .stream) :
    tally rounds o = rounds := by
  rw [tally.eq_def]
  split
  · split
    · rename_i hp
      exact absurd (congrArg EventPayload.kind hp) hr
    · rfl
  · exact absurd rfl hs
  · rfl

theorem attempts_concat : attempts (obs ++ [o]) = tally (attempts obs) o := List.foldl_concat ..

theorem attempts_append (h : ∀ o ∈ seg, o.kind ≠ .requestStarted ∧ o.kind ≠ .stream) :
    attempts (obs ++ seg) = attempts obs := by
  induction seg using List.reverseRecOn with
  | nil => rw [List.append_nil]
  | append_singleton seg o ih =>
    obtain ⟨hseg, ho⟩ := List.forall_mem_append.mp h
    obtain ⟨hr, hs⟩ := ho o (List.mem_singleton_self o)
    rw [← List.append_assoc, attempts_concat, tally_eq hr hs, ih hseg]

end Used

namespace TurnEngine

variable {σ α : Type} {deps : TurnEngineDeps σ} {base : PersistBase} {w w' : World σ}
  {ks : List Kind} {j k : ℕ} {call : NormalizedToolCall}

/-! ## Executions -/

/-- Besides the executions so far, so many more were put to the budget. -/
structure Spent (deps : TurnEngineDeps σ) (k : ℕ) (w : World σ) : Prop where
  counted : executions w.obs + k ≤ w.turn.budget.toolCalls
  allowed : executions w.obs + k ≤ deps.budget.maxToolCallsPerTurn

theorem Spent.mono (h : Spent deps k w) (hj : j ≤ k) : Spent deps j w :=
  ⟨(Nat.add_le_add_left hj _).trans h.counted, (Nat.add_le_add_left hj _).trans h.allowed⟩

theorem Spent.leaves (h : Spent deps k w) (hks : .execution ∉ ks ∧ .toolCall ∉ ks)
    (hl : Leaves deps ks w w') : Spent deps k w' := by
  obtain ⟨seg, hobs, hkinds⟩ := hl.obs
  have hsame : executions w'.obs = executions w.obs := by
    rw [hobs, executions_append fun o ho heq ↦ hks.1 (heq ▸ hkinds o ho)]
  exact ⟨by rw [hsame, hl.toolCalls hks.2]; exact h.counted, by rw [hsame]; exact h.allowed⟩

theorem spent_footprint {s : List Kind} {m : Engine σ α} (hm : Footprint deps s m)
    (hks : .execution ∉ s ∧ .toolCall ∉ s) :
    Triple (Spent deps k) m (fun _ ↦ Spent deps k) fun _ ↦ Spent deps k :=
  hm.keeps fun hl h ↦ Spent.leaves h hks hl

/-- What taking a call up leaves: one more that was put to the budget, or a phase that stops. -/
def Put (deps : TurnEngineDeps σ) (k : ℕ) : Option ToolPhase → World σ → Prop
  | some _ => Spent deps k
  | none => Spent deps (k + 1)

theorem spent_beforeToolCall :
    Triple (Spent deps k) (useBudget (·.beforeToolCall deps.budget))
      (fun verdict ↦ match verdict with
        | some _ => Spent deps k
        | none => Spent deps (k + 1)) fun _ ↦ Spent deps k := by
  intro w hw
  rw [useBudget, BudgetTracker.beforeToolCall]
  by_cases h : deps.budget.maxToolCallsPerTurn ≤ w.turn.budget.toolCalls
  · rw [if_pos h]
    exact ⟨hw.counted, hw.allowed⟩
  · rw [if_neg h]
    have hcounted := hw.counted
    exact ⟨Nat.succ_le_succ hcounted, (Nat.succ_le_succ hcounted).trans (Nat.not_le.mp h)⟩

theorem spent_takeUp :
    Triple (Spent deps k) (takeUp deps call) (Put deps k) fun _ ↦ Spent deps k := by
  have hstop : ∀ reason, Triple (Spent deps k) (do
      note (σ := σ) (.budgetStop reason)
      pure (some (ToolPhase.budget reason))) (Put deps k) fun _ ↦ Spent deps k := fun reason ↦
    .bind (spent_footprint (footprint_note (fun _ ↦ rfl)
      (List.mem_singleton_self Kind.budgetStop)) (by decide)) fun _ ↦ .pure fun _ h ↦ h
  rw [takeUp]
  refine .bind (spent_footprint (footprint_signalAborted (List.mem_singleton_self _))
    (by decide)) fun aborted ↦ ?_
  split
  · exact .pure fun _ h ↦ h
  · refine .bind spent_beforeToolCall fun verdict ↦ ?_
    cases verdict with
    | some reason => exact hstop reason
    | none =>
      have hobserve : Triple (Spent deps (k + 1))
          (useBudget (·.observeToolCall deps.budget call.toolName call.argumentsJson))
          (fun _ ↦ Spent deps (k + 1)) fun _ ↦ Spent deps (k + 1) :=
        spent_footprint (s := [.modelCall]) (footprint_useBudget
          (.inl (List.mem_singleton_self _)) (.inr fun b ↦ b.toolCalls_observeToolCall)) (by decide)
      refine .bind (hobserve.conseq (fun _ h ↦ h) (fun _ _ h ↦ h) fun _ _ h ↦
        h.mono (Nat.le_succ k)) fun verdict ↦ ?_
      cases verdict with
      | some reason =>
        exact (hstop reason).conseq (fun _ h ↦ h.mono (Nat.le_succ k)) (fun _ _ h ↦ h)
          fun _ _ h ↦ h
      | none => exact .pure fun _ h ↦ h

/-- A tool is executed, and one call less is outstanding. -/
theorem spent_execute {sideEffectId : String} :
    Triple (Spent deps (k + 1)) (execute deps sideEffectId call) (fun _ ↦ Spent deps k)
      fun _ ↦ Spent deps k := by
  have hstep : ∀ {w w' : World σ} {answer}, Spent deps (k + 1) w →
      Adds deps (.execute sideEffectId call answer) w w' → Spent deps k w' := by
    intro w w' answer h ha
    have hone : executions w'.obs = executions w.obs + 1 := by
      rw [ha.obs, executions, List.countP_append]
      rfl
    refine ⟨?_, ?_⟩ <;> rw [hone, Nat.add_assoc, Nat.add_comm 1]
    · rw [ha.budget]
      exact h.counted
    · exact h.allowed
  exact ask_rule (fun _ ↦ rfl) (fun _ h ha ↦ hstep h ha) fun _ h ha ↦ hstep h ha

theorem spent_executeAll (cleared : List (NormalizedToolCall × String)) :
    Triple (Spent deps (k + cleared.length)) (runAll (cleared.map fun x ↦ execute deps x.2 x.1))
      (fun _ ↦ Spent deps k) fun _ ↦ Spent deps k := by
  induction cleared with
  | nil => exact .pure fun _ h ↦ h
  | cons x cleared ih =>
    rw [List.map_cons, runAll, List.length_cons, ← Nat.add_assoc]
    refine .bind (.attempt (q := fun _ ↦ Spent deps (k + cleared.length)) spent_execute)
      fun a ↦ ?_
    refine .bind (.attempt (q := fun _ ↦ Spent deps k) ih) fun as ↦ ?_
    have hthrow : ∀ {β : Type} (a : Except Thrown β), Triple (Spent deps k)
        (orThrow a : Engine σ β) (fun _ ↦ Spent deps k) fun _ ↦ Spent deps k := fun a ↦
      spent_footprint (s := []) (.orThrow a) (by decide)
    exact .bind (hthrow a) fun a ↦ .bind (hthrow as) fun as ↦ .pure fun _ h ↦ h

theorem spent_runOneCall :
    Triple (Spent deps 0) (runOneCall deps base call) (fun _ ↦ Spent deps 0)
      fun _ ↦ Spent deps 0 := by
  rw [runOneCall]
  refine .bind (spent_footprint (footprint_note (fun _ ↦ rfl)
    (List.mem_singleton_self Kind.takeUp)) (by decide)) fun _ ↦ ?_
  refine .bind spent_takeUp fun phase ↦ ?_
  cases phase with
  | some phase => exact .pure fun _ h ↦ h
  | none =>
    have hkeep : ∀ {β : Type} {ks : List Kind} {m : Engine σ β}, Footprint deps ks m →
        .execution ∉ ks ∧ .toolCall ∉ ks → Triple (Spent deps 1) m (fun _ ↦ Spent deps 1)
          fun _ ↦ Spent deps 0 := fun hm hks ↦
      (spent_footprint hm hks).conseq (fun _ h ↦ h) (fun _ _ h ↦ h) fun _ _ h ↦
        h.mono (Nat.zero_le 1)
    refine .bind (hkeep footprint_passGates (by decide)) fun admission ↦ ?_
    cases admission with
    | stop phase => exact .pure fun _ h ↦ h.mono (Nat.zero_le 1)
    | refused => exact .pure fun _ h ↦ h.mono (Nat.zero_le 1)
    | admitted =>
      refine .bind (hkeep footprint_beginSideEffect (by decide)) fun begun ↦ ?_
      cases begun with
      | none => exact .pure fun _ h ↦ h.mono (Nat.zero_le 1)
      | some sideEffectId =>
        refine .bind spent_execute fun result ↦ ?_
        refine .bind (spent_footprint (footprint_settle (List.mem_singleton_self _))
          (by decide)) fun _ ↦ ?_
        refine .bind (spent_footprint footprint_recordResult (by decide)) fun stop ↦ ?_
        exact spent_footprint (footprint_afterResults (List.mem_singleton_self _)) (by decide)

/-- What starting a batch leaves: the calls that are to be executed. -/
def Outstanding (deps : TurnEngineDeps σ) (k : ℕ) :
    Except ToolPhase (List (NormalizedToolCall × String)) → World σ → Prop
  | .ok cleared => Spent deps (k + cleared.length)
  | .error _ => Spent deps k

theorem spent_startBatch (items : List (NormalizedToolCall × ToolEvaluation)) :
    Triple (Spent deps k) (startBatch deps base items) (Outstanding deps k)
      fun _ ↦ Spent deps k := by
  induction items generalizing k with
  | nil => exact .pure fun _ h ↦ h
  | cons item items ih =>
    rw [startBatch]
    refine .bind spent_takeUp fun phase ↦ ?_
    cases phase with
    | some phase => exact .pure fun _ h ↦ h
    | none =>
      -- From here on one more call was put to the budget, whether it is executed or not.
      have hkeep : ∀ {β : Type} {ks : List Kind} {m : Engine σ β}, Footprint deps ks m →
          .execution ∉ ks ∧ .toolCall ∉ ks → Triple (Spent deps (k + 1)) m
            (fun _ ↦ Spent deps (k + 1)) fun _ ↦ Spent deps k := fun hm hks ↦
        (spent_footprint hm hks).conseq (fun _ h ↦ h) (fun _ _ h ↦ h) fun _ _ h ↦
          h.mono (Nat.le_succ k)
      have hskip : Triple (Spent deps (k + 1)) (startBatch deps base items) (Outstanding deps k)
          fun _ ↦ Spent deps k :=
        ih.conseq (fun _ h ↦ h.mono (Nat.le_succ k)) (fun _ _ h ↦ h) fun _ _ h ↦ h
      refine .bind (hkeep footprint_preToolUse (by decide)) fun blocked ↦ ?_
      split
      · exact hskip
      · refine .bind (hkeep (footprint_persistVerdict (List.mem_singleton_self _))
          (by decide)) fun _ ↦ ?_
        refine .bind (hkeep footprint_beginSideEffect (by decide)) fun begun ↦ ?_
        cases begun with
        | none => exact hskip
        | some sideEffectId =>
          refine .bind (ih.conseq (fun _ h ↦ h) (fun _ _ h ↦ h) fun _ _ h ↦
            h.mono (Nat.le_succ k)) fun more ↦ ?_
          cases more with
          | ok more =>
            refine .pure fun w h ↦ ?_
            rw [Outstanding, List.length_cons, ← Nat.succ_add_eq_add_succ]
            exact h
          | error phase => exact .pure fun _ h ↦ h.mono (Nat.le_succ k)

theorem spent_runParallelBatch (calls : List NormalizedToolCall) :
    Triple (Spent deps 0) (runParallelBatch deps base calls) (fun _ ↦ Spent deps 0)
      fun _ ↦ Spent deps 0 := by
  rw [runParallelBatch]
  refine .bind (spent_footprint (footprint_note (fun _ ↦ rfl)
    (List.mem_singleton_self Kind.takeUpBatch)) (by decide)) fun _ ↦ ?_
  refine .bind (spent_footprint (footprint_evaluateAll calls) (by decide)) fun verdicts ↦ ?_
  split
  · refine .bind (spent_startBatch _) fun started ↦ ?_
    cases started with
    | error phase => exact .pure fun _ h ↦ h
    | ok cleared =>
      refine .bind (spent_executeAll cleared) fun results ↦ ?_
      refine .bind (spent_footprint (footprint_settleBatch _) (by decide)) fun stop ↦ ?_
      exact spent_footprint (footprint_afterResults (List.mem_singleton_self _)) (by decide)
  · exact runSerially_rule (q := fun _ ↦ Spent deps 0) (fun _ ↦ .rfl) (fun _ ↦ spent_runOneCall)
      calls

/-- **Every execution was put to the budget.** -/
theorem enter_spent (deps : TurnEngineDeps σ) (input : TurnInput) (env : σ) (drawn : ℕ) :
    Spent deps 0 (after (enter deps input (initial env drawn))) := by
  have hphase : ∀ {m : Engine σ ToolPhase},
      Triple (Spent deps 0) m (fun _ ↦ Spent deps 0) (fun _ ↦ Spent deps 0) →
      Triple (Spent deps 0) m (Concluded (Spent deps 0) (Spent deps 0)) fun _ ↦ Spent deps 0 :=
    fun hm ↦ hm.conseq (fun _ h ↦ h) (fun phase _ h ↦ by cases phase <;> exact h) fun _ _ h ↦ h
  refine enter_holds (Q := Spent deps 0) (fun {w} ho ↦ ?_) (fun base ↦
    { weaken := fun h ↦ h
      go_outer := fun hl h ↦ h.leaves (by decide) hl
      stop_outer := fun hl h ↦ h.leaves (by decide) hl
      one := fun _ ↦ hphase spent_runOneCall
      batch := fun calls ↦ hphase (spent_runParallelBatch calls) }) input
  have hnone : executions w.obs = 0 := List.countP_eq_zero.mpr fun o ho' htrue ↦ by
    obtain ⟨e, he, rfl⟩ := List.mem_map.mp ho'
    have hkind := ho.kinds e he
    rw [Obs.isExecution.eq_def] at htrue
    split at htrue
    · rename_i heq
      rw [heq] at hkind
      exact absurd hkind (show Kind.execution ∉ openingKinds by decide)
    · cases htrue
  exact ⟨hnone.symm ▸ Nat.zero_le _, hnone.symm ▸ Nat.zero_le _⟩

/-! ## Rounds and attempts -/

/-- The rounds so far were put to the budget, and so many more. None of them made more attempts
than the policy allows. -/
structure Paced (deps : TurnEngineDeps σ) (j : ℕ) (w : World σ) : Prop where
  counted : (attempts w.obs).length + j ≤ w.turn.budget.modelCalls
  allowed : (attempts w.obs).length + j ≤ deps.budget.maxModelCallsPerTurn
  attempts : ∀ n ∈ attempts w.obs, n ≤ deps.retryPolicy.allowed

/-- So many attempts of the last round were made. -/
structure Trying (deps : TurnEngineDeps σ) (n : ℕ) (w : World σ) : Prop
    extends Paced deps 0 w where
  round : ∃ before, QwenHarness.attempts w.obs = before ++ [n]

/-- No records of these kinds start a round or make an attempt, and no call of the model is
counted. -/
def Unpaced (ks : List Kind) : Prop :=
  ∀ k ∈ [Kind.requestStarted, .stream, .modelCall], k ∉ ks

instance : Decidable (Unpaced ks) :=
  inferInstanceAs (Decidable (∀ k ∈ [Kind.requestStarted, .stream, .modelCall], k ∉ ks))

theorem attempts_leaves (hks : Unpaced ks) (hl : Leaves deps ks w w') :
    attempts w'.obs = attempts w.obs := by
  obtain ⟨seg, hobs, hkinds⟩ := hl.obs
  rw [hobs, attempts_append fun o ho ↦ ⟨fun heq ↦ ?_, fun heq ↦ ?_⟩]
  · exact hks _ (by decide) (heq ▸ hkinds o ho)
  · exact hks _ (by decide) (heq ▸ hkinds o ho)

theorem Paced.mono (h : Paced deps j w) (hk : k ≤ j) : Paced deps k w :=
  ⟨(Nat.add_le_add_left hk _).trans h.counted, (Nat.add_le_add_left hk _).trans h.allowed,
    h.attempts⟩

theorem Paced.leaves (h : Paced deps j w) (hks : Unpaced ks) (hl : Leaves deps ks w w') :
    Paced deps j w' := by
  have hsame := attempts_leaves hks hl
  have hcalls := hl.modelCalls (hks _ (by decide))
  exact ⟨by rw [hsame, hcalls]; exact h.counted, by rw [hsame]; exact h.allowed,
    by rw [hsame]; exact h.attempts⟩

theorem paced_footprint {s : List Kind} {m : Engine σ α} (hm : Footprint deps s m)
    (hks : Unpaced s) : Triple (Paced deps j) m (fun _ ↦ Paced deps j) fun _ ↦ Paced deps 0 :=
  (hm.keeps fun hl h ↦ Paced.leaves h hks hl).conseq (fun _ h ↦ h) (fun _ _ h ↦ h)
    fun _ _ h ↦ h.mono (Nat.zero_le j)

theorem trying_footprint {s : List Kind} {n : ℕ} {m : Engine σ α} (hm : Footprint deps s m)
    (hks : Unpaced s) : Triple (Trying deps n) m (fun _ ↦ Trying deps n) fun _ ↦ Paced deps 0 := by
  have hkeeps : Keeps (Trying deps n) m := hm.keeps fun hl h ↦
    ⟨h.toPaced.leaves hks hl, (attempts_leaves hks hl).symm ▸ h.round⟩
  exact hkeeps.conseq (fun _ h ↦ h) (fun _ _ h ↦ h) fun _ _ h ↦ h.toPaced

/-- A request starts a round. -/
theorem paced_requestStarted {model digest : String} {transport : Transport} :
    Triple (Paced deps 1) (persist deps base (.modelRequestStarted model transport digest))
      (fun _ ↦ Trying deps 0) fun _ ↦ Paced deps 0 := by
  have hstep : ∀ {w w' : World σ} {input answer},
      input.payload = .modelRequestStarted model transport digest → Paced deps 1 w →
      Adds deps (.append input answer) w w' → Trying deps 0 w' := by
    intro w w' input answer hp h ha
    have hround : attempts w'.obs = attempts w.obs ++ [0] := by
      rw [ha.obs, attempts_concat, tally, hp]
    refine ⟨⟨?_, ?_, ?_⟩, _, hround⟩ <;> rw [hround]
    · rw [List.length_append, ha.budget]
      exact h.counted
    · rw [List.length_append]
      exact h.allowed
    · intro n hn
      rcases List.mem_append.mp hn with hn | hn
      · exact h.attempts n hn
      · exact List.mem_singleton.mp hn ▸ Nat.zero_le _
  exact ask_rule (fun _ ↦ rfl) (fun _ h ha ↦ hstep rfl h ha) fun _ h ha ↦
    (hstep rfl h ha).toPaced

/-- One more attempt is made. -/
theorem Trying.stream {n : ℕ} {request : ModelRequest}
    {answer : Except Thrown (List ProviderStreamEvent)} (hn : n < deps.retryPolicy.allowed)
    (h : Trying deps n w) (ha : Adds deps (.stream request answer) w w') :
    Trying deps (n + 1) w' := by
  obtain ⟨before, hbefore⟩ := h.round
  have hround : attempts w'.obs = before ++ [n + 1] := by
    rw [ha.obs, attempts_concat, tally, hbefore, List.dropLast_concat, List.getLastD_concat]
  have hlen : (attempts w'.obs).length = (attempts w.obs).length := by
    rw [hround, hbefore, List.length_append, List.length_append]
    rfl
  refine ⟨⟨?_, ?_, ?_⟩, before, hround⟩
  · rw [hlen, ha.budget]
    exact h.counted
  · rw [hlen]
    exact h.allowed
  · intro m hm
    rw [hround] at hm
    rcases List.mem_append.mp hm with hm | hm
    · exact h.attempts m (hbefore ▸ List.mem_append_left _ hm)
    · exact List.mem_singleton.mp hm ▸ hn

/-- **The attempts of one request.** Below the limit another one may be made. -/
theorem paced_streamWithRetry {request : ModelRequest} {startedAt : ℤ} (fuel : ℕ) {n : ℕ}
    (hn : n < deps.retryPolicy.allowed) :
    Triple (Trying deps n) (streamWithRetry deps request startedAt (n + 1) fuel)
      (fun _ ↦ Paced deps 0) fun _ ↦ Paced deps 0 := by
  induction fuel generalizing n with
  | zero => exact .throw fun _ h ↦ h.toPaced
  | succ fuel ih =>
    rw [streamWithRetry]
    refine .tryCatch (s := fun _ ↦ Trying deps (n + 1)) ?_ fun err ↦ ?_
    · refine .bind (s := fun _ ↦ Trying deps (n + 1)) ?_ fun events ↦ .pure fun _ h ↦ h.toPaced
      exact ask_rule (fun _ ↦ rfl) (fun _ h ha ↦ h.stream hn ha) fun _ h ha ↦ h.stream hn ha
    · refine .bind (trying_footprint (footprint_signalAborted (List.mem_singleton_self _))
        (by decide)) fun aborted ↦ ?_
      split
      · exact .throw fun _ h ↦ h.toPaced
      · cases err with
        | other message => exact .throw fun _ h ↦ h.toPaced
        | harness error =>
          refine .bind (trying_footprint (s := []) footprint_now (by decide)) fun now ↦ ?_
          refine .bind (trying_footprint (s := []) (footprint_read fun _ ↦ .inr (.inl rfl))
            (by decide)) fun r ↦ ?_
          cases hd : decideRetry error (n + 1) (now - startedAt) r deps.retryPolicy with
          | error e => exact .throw fun _ h ↦ h.toPaced
          | ok decision =>
            cases decision with
            | error reason => exact .throw fun _ h ↦ h.toPaced
            | ok delayMs =>
              refine .bind (s := fun d w ↦ d = .ok delayMs ∧ Trying deps (n + 1) w)
                (fun _ h ↦ ⟨rfl, h⟩) fun d ↦ .assuming ?_
              rintro rfl
              refine .bind (trying_footprint (s := [.sleep]) (footprint_ask (fun _ ↦ rfl)
                fun _ ↦ List.mem_of_elem_eq_true rfl) (by decide)) fun _ ↦ ?_
              exact ih (lt_max_of_lt_right (lt_of_decideRetry hd))

theorem paced_requestRound {ctx : DriveContext} :
    Triple (Paced deps 1) (requestRound deps base ctx) (fun _ ↦ Paced deps 0)
      fun _ ↦ Paced deps 0 := by
  rw [requestRound]
  refine .bind (s := fun _ ↦ Paced deps 1) (fun _ h ↦ h) fun turn ↦ ?_
  refine .bind paced_requestStarted fun _ ↦ ?_
  refine .bind (trying_footprint (s := []) footprint_now (by decide)) fun startedAt ↦ ?_
  refine .bind (paced_streamWithRetry _ (lt_max_of_lt_left Nat.zero_lt_one)) fun round ↦ ?_
  refine .bind (paced_footprint (s := []) (footprint_modifyTurn (fun _ ↦ rfl)
    (fun _ ↦ rfl) fun _ ↦ rfl) (by decide)) fun _ ↦ ?_
  refine .bind (paced_footprint (footprint_persist .request rfl (List.mem_singleton_self _))
    (by decide)) fun _ ↦ ?_
  refine .bind (paced_footprint (footprint_persistItems fun body hb ↦ kind_of_mem_roundItems hb)
    (by decide)) fun _ ↦ ?_
  refine .bind (.when (fun _ ↦ paced_footprint (s := []) (footprint_modifyTurn
    (fun _ ↦ rfl) (fun _ ↦ rfl) fun _ ↦ rfl) (by decide)) fun _ _ h ↦ h) fun _ ↦ .pure fun _ h ↦ h

/-- What the budget leaves before a call of the model. -/
theorem paced_beforeModelCall {now : ℤ} :
    Triple (Paced deps 0) (useBudget (·.beforeModelCall deps.budget now))
      (fun verdict ↦ match verdict with
        | some _ => Paced deps 0
        | none => Paced deps 1) fun _ ↦ Paced deps 0 := by
  intro w hw
  have hstop := fun reason ↦
    @BudgetTracker.beforeModelCall_stop deps.budget w.turn.budget now reason
  have hgo := @BudgetTracker.beforeModelCall_continue deps.budget w.turn.budget now
  rw [useBudget]
  generalize w.turn.budget.beforeModelCall deps.budget now = x at hstop hgo
  rcases x with ⟨_ | reason, budget⟩
  · obtain ⟨hlt, rfl⟩ := hgo rfl
    have hcounted := hw.counted
    exact ⟨Nat.succ_le_succ hcounted, (Nat.succ_le_succ hcounted).trans hlt, hw.attempts⟩
  · obtain rfl := hstop reason rfl
    exact ⟨hw.counted, hw.allowed, hw.attempts⟩

theorem paced_modelPhase {ctx : DriveContext} :
    Triple (Paced deps 0) (modelPhase deps base ctx) (fun _ ↦ Paced deps 0)
      fun _ ↦ Paced deps 0 := by
  rw [modelPhase]
  refine .bind (paced_footprint (s := []) footprint_now (by decide)) fun now ↦ ?_
  refine .bind paced_beforeModelCall fun verdict ↦ ?_
  cases verdict with
  | some reason =>
    refine .bind (paced_footprint (footprint_note (fun _ ↦ rfl)
      (List.mem_singleton_self Kind.budgetStop)) (by decide)) fun _ ↦ ?_
    exact paced_footprint footprint_endFor (by decide)
  | none =>
    refine .bind (paced_footprint (footprint_transitionUnless
      (List.mem_singleton_self _)) (by decide)) fun _ ↦ ?_
    refine .bind (paced_footprint (footprint_persistState (List.mem_singleton_self _))
      (by decide)) fun _ ↦ ?_
    refine .bind (paced_footprint footprint_prepareContext (by decide)) fun goes ↦ ?_
    split
    · refine .bind paced_requestRound fun round ↦ ?_
      split
      · exact paced_footprint footprint_endFor (by decide)
      · refine .bind (.when (fun _ ↦ paced_footprint (footprint_say
          (List.mem_singleton_self _)) (by decide)) fun _ _ h ↦ h) fun _ ↦ ?_
        exact .bind (paced_footprint (footprint_say (List.mem_singleton_self _))
          (by decide)) fun _ ↦ .pure fun _ h ↦ h
    · exact .pure fun _ h ↦ h.mono (Nat.zero_le 1)

theorem paced_driveLoop (ctx : DriveContext) (fuel : ℕ) (calls : List NormalizedToolCall) :
    Triple (Paced deps 0) (driveLoop deps base ctx fuel calls) (fun _ ↦ Paced deps 0)
      fun _ ↦ Paced deps 0 := by
  induction fuel generalizing calls with
  | zero => exact .pure fun _ h ↦ h
  | succ fuel ih =>
    rw [driveLoop]
    refine .bind (paced_footprint (footprint_signalAborted (List.mem_singleton_self _))
      (by decide)) fun aborted ↦ ?_
    split
    · refine .bind (paced_footprint footprint_cancel (by decide)) fun _ ↦ ?_
      exact paced_footprint (s := []) footprint_setTerminalReason (by decide)
    · refine .bind (paced_footprint footprint_toolPhase (by decide)) fun goes ↦ ?_
      split
      · refine .bind paced_modelPhase fun next ↦ ?_
        cases next with
        | some calls => exact ih calls
        | none => exact .pure fun _ h ↦ h
      · exact .pure fun _ h ↦ h

theorem paced_drive (ctx : DriveContext) (calls : List NormalizedToolCall) :
    Triple (Paced deps 0) (drive deps base ctx calls) (fun _ ↦ Paced deps 0)
      fun _ ↦ Paced deps 0 := by
  refine .bind (.tryCatch (paced_driveLoop ctx _ calls) fun e ↦
    paced_footprint footprint_driveCatch (by decide)) fun _ ↦ ?_
  exact fun _ h ↦ h

/-- **Every round was put to the budget**, and every further attempt to the policy. -/
theorem enter_paced (deps : TurnEngineDeps σ) (input : TurnInput) (env : σ) (drawn : ℕ) :
    Paced deps 0 (after (enter deps input (initial env drawn))) := by
  have hopen : ∀ {w : World σ}, w.trace = [] → Paced deps 0 w := fun {w} hw ↦ by
    have hnone : attempts w.obs = [] := by rw [World.obs, hw]; rfl
    exact ⟨by rw [hnone]; exact Nat.zero_le _, by rw [hnone]; exact Nat.zero_le _,
      by rw [hnone]; exact fun n hn ↦ absurd hn List.not_mem_nil⟩
  have hturn : ∀ turn : Turn, Triple (fun w : World σ ↦ w.trace = []) (modifyTurn fun _ ↦ turn)
      (fun _ ↦ Paced deps 0) fun _ ↦ Paced deps 0 := fun turn w hw ↦ hopen hw
  have henter : Triple (fun w : World σ ↦ w.trace = []) (enter deps input) (fun _ ↦ Paced deps 0)
      fun _ ↦ Paced deps 0 := by
    cases input with
    | run input =>
      refine .bind (s := fun _ (w : World σ) ↦ w.trace = []) (fun _ h ↦ h) fun now ↦ ?_
      refine .bind (s := fun _ (w : World σ) ↦ w.trace = []) (fun _ h ↦ h) fun turnId ↦ ?_
      refine .bind (hturn _) fun _ ↦ ?_
      refine .bind (paced_footprint (footprint_persist .turnStarted rfl
        (List.mem_singleton_self _)) (by decide)) fun _ ↦ ?_
      refine .bind (paced_footprint (footprint_say (List.mem_singleton_self _))
        (by decide)) fun _ ↦ ?_
      refine .bind (paced_footprint (s := [.said, .lifecycle]) (footprint_drainNotifications
        (by decide) (by decide)) (by decide)) fun _ ↦ paced_drive _ []
    | resume input =>
      refine .bind (s := fun _ (w : World σ) ↦ w.trace = []) (fun _ h ↦ h) fun now ↦ ?_
      exact .bind (hturn _) fun _ ↦ paced_drive _ _
  have hafter := henter (initial env drawn) rfl
  cases hr : enter deps input (initial env drawn) with
  | ok a w => rw [hr] at hafter; exact hafter
  | error e w => rw [hr] at hafter; exact hafter

/-! ## More fuel -/

/-- The attempts of a request end by themselves. -/
theorem streamWithRetry_add {request : ModelRequest} {startedAt : ℤ} (extra fuel : ℕ) {attempt : ℕ}
    (h : deps.retryPolicy.maxAttempts ≤ attempt + fuel) :
    streamWithRetry deps request startedAt attempt (fuel + extra + 1) =
      streamWithRetry deps request startedAt attempt (fuel + 1) := by
  induction fuel using Nat.strong_induction_on generalizing attempt with
  | h fuel ih =>
    rw [streamWithRetry, streamWithRetry]
    refine congrArg (tryCatch _) (funext fun err ↦ ?_)
    refine congrArg (signalAborted deps >>= ·) (funext fun aborted ↦ ?_)
    split
    · rfl
    · cases err with
      | other message => rfl
      | harness error =>
        refine congrArg (read deps.now >>= ·) (funext fun now ↦ ?_)
        refine congrArg (read deps.rng >>= ·) (funext fun r ↦ ?_)
        cases hd : decideRetry error attempt (now - startedAt) r deps.retryPolicy with
        | error e => rfl
        | ok decision =>
          cases decision with
          | error reason => rfl
          | ok delayMs =>
            -- Another attempt is allowed, so there is fuel for it.
            have hlt := lt_of_decideRetry hd
            obtain ⟨left, rfl⟩ : ∃ left, fuel = left + 1 := ⟨fuel - 1, by omega⟩
            refine congrArg (ask (.sleep delayMs) (deps.sleep delayMs) >>= ·) (funext fun _ ↦ ?_)
            rw [Nat.add_right_comm left 1 extra]
            exact ih left (Nat.lt_succ_self left) (by omega)

/-- So many calls of the model were counted. -/
def Counted (n : ℕ) (w : World σ) : Prop := w.turn.budget.modelCalls = n

theorem counted_footprint {d : TurnEngineDeps σ} {s : List Kind} {n : ℕ} {m : Engine σ α}
    {r : Thrown → World σ → Prop}
    (hr : ∀ e w, r e w) (hm : Footprint d s m) (hks : .modelCall ∉ s) :
    Triple (Counted n) m (fun _ ↦ Counted n) r :=
  (hm.keeps fun hl (h : Counted n _) ↦ (hl.modelCalls hks).trans h).conseq (fun _ h ↦ h)
    (fun _ _ h ↦ h) fun e w _ ↦ hr e w

/-- Where the model phase asks for calls, one more call of the model was counted. -/
theorem counted_modelPhase {n : ℕ} {ctx : DriveContext} :
    Triple (Counted n) (modelPhase deps base ctx)
      (fun next w ↦ next.isSome = true → n < deps.budget.maxModelCallsPerTurn ∧ Counted (n + 1) w)
      fun _ _ ↦ True := by
  have hkeep : ∀ {β : Type} {ks : List Kind} {m : Engine σ β}, Footprint deps ks m →
      .modelCall ∉ ks → Triple (fun w ↦ n < deps.budget.maxModelCallsPerTurn ∧ Counted (n + 1) w) m
        (fun _ w ↦ n < deps.budget.maxModelCallsPerTurn ∧ Counted (n + 1) w)
        fun _ _ ↦ True := fun hm hks ↦
    .assuming fun hn ↦ (counted_footprint (fun _ _ ↦ trivial) hm hks).conseq (fun _ h ↦ h)
      (fun _ _ h ↦ ⟨hn, h⟩) fun _ _ _ ↦ trivial
  have htrivial : ∀ {β : Type} {p : World σ → Prop} (m : Engine σ β),
      Triple p m (fun _ _ ↦ True) fun _ _ ↦ True := fun m w _ ↦ by cases m w <;> trivial
  have hover : ∀ {p : World σ → Prop} {state reason}, Triple p (do
      endTurn deps base state reason
      setTerminalReason reason
      pure (none : Option (List NormalizedToolCall)))
      (fun next w ↦ next.isSome = true → n < deps.budget.maxModelCallsPerTurn ∧ Counted (n + 1) w)
      fun _ _ ↦ True :=
    .bind (htrivial _) fun _ ↦ .bind (htrivial _) fun _ ↦ .pure fun _ _ h ↦ by cases h
  rw [modelPhase]
  refine .bind (counted_footprint (s := []) (fun _ _ ↦ trivial) footprint_now (by decide))
    fun now ↦ ?_
  refine .bind (s := fun verdict w ↦ verdict = none →
    n < deps.budget.maxModelCallsPerTurn ∧ Counted (n + 1) w) (fun w hw ↦ ?_) fun verdict ↦ ?_
  · have hgo := @BudgetTracker.beforeModelCall_continue deps.budget w.turn.budget now
    rw [useBudget]
    generalize w.turn.budget.beforeModelCall deps.budget now = x at hgo
    rcases x with ⟨verdict, budget⟩
    intro hv
    obtain ⟨hlt, rfl⟩ := hgo hv
    exact ⟨hw ▸ hlt, congrArg (· + 1) hw⟩
  · cases verdict with
    | some reason => exact .bind (htrivial _) fun _ ↦ hover
    | none =>
      refine Triple.conseq (s := fun w ↦ n < deps.budget.maxModelCallsPerTurn ∧ Counted (n + 1) w)
        ?_ (fun w h ↦ h rfl) (fun _ _ h ↦ h) fun _ _ h ↦ h
      refine .bind (hkeep (footprint_transitionUnless (List.mem_singleton_self _)) (by decide))
        fun _ ↦ ?_
      refine .bind (hkeep (footprint_persistState (List.mem_singleton_self _)) (by decide))
        fun _ ↦ ?_
      refine .bind (hkeep footprint_prepareContext (by decide)) fun goes ↦ ?_
      split
      · refine .bind (hkeep footprint_requestRound (by decide)) fun round ↦ ?_
        split
        · exact hover
        · refine .bind (.when (fun _ ↦ hkeep (footprint_say (List.mem_singleton_self _))
            (by decide)) fun _ _ h ↦ h) fun _ ↦ ?_
          exact .bind (hkeep (footprint_say (List.mem_singleton_self _)) (by decide)) fun _ ↦
            .pure fun _ h _ ↦ h
      · exact .pure fun _ _ h ↦ by cases h

/-- The rounds of a turn end by themselves. -/
theorem driveLoop_add (ctx : DriveContext) (extra fuel : ℕ) (calls : List NormalizedToolCall)
    {w : World σ} (hn : w.turn.budget.modelCalls ≤ deps.budget.maxModelCallsPerTurn)
    (h : deps.budget.maxModelCallsPerTurn + 1 ≤ w.turn.budget.modelCalls + fuel) :
    driveLoop deps base ctx (fuel + extra) calls w = driveLoop deps base ctx fuel calls w := by
  induction fuel generalizing calls w with
  | zero => omega
  | succ fuel ih =>
    rw [Nat.add_right_comm fuel 1 extra, driveLoop, driveLoop]
    refine bind_apply_congr fun aborted asked hasked ↦ ?_
    cases aborted with
    | true => rfl
    | false =>
      refine bind_apply_congr (m := toolPhase deps base calls) fun goes ran hran ↦ ?_
      cases goes with
      | false => rfl
      | true =>
        refine bind_apply_congr (m := modelPhase deps base ctx) fun next answered hanswered ↦ ?_
        cases next with
        | none => rfl
        | some calls =>
          have hsignal : Counted w.turn.budget.modelCalls asked :=
            (counted_footprint (r := fun _ _ ↦ True) (fun _ _ ↦ trivial)
              (footprint_signalAborted (List.mem_singleton_self _)) (by decide)).ok rfl hasked
          have htool : Counted w.turn.budget.modelCalls ran :=
            (counted_footprint (r := fun _ _ ↦ True) (fun _ _ ↦ trivial) footprint_toolPhase
              (by decide)).ok hsignal hran
          obtain ⟨hlt, hcount⟩ := counted_modelPhase.ok htool hanswered rfl
          rw [Counted] at hcount
          exact ih calls (by omega) (by omega)

/-- The loops end by themselves: with more fuel they do the same. -/
structure EndByThemselves (deps : TurnEngineDeps σ) : Prop where
  attempts : ∀ request startedAt extra,
    streamWithRetry deps request startedAt 1 (deps.retryPolicy.allowed + extra) =
      streamWithRetry deps request startedAt 1 deps.retryPolicy.allowed
  rounds : ∀ base ctx calls extra w,
    w.turn.budget.modelCalls ≤ deps.budget.maxModelCallsPerTurn →
      driveLoop deps base ctx (deps.budget.maxModelCallsPerTurn + 1 + extra) calls w =
        driveLoop deps base ctx (deps.budget.maxModelCallsPerTurn + 1) calls w

theorem endByThemselves (deps : TurnEngineDeps σ) : EndByThemselves deps where
  attempts := by
    intro request startedAt extra
    obtain ⟨fuel, hfuel⟩ : ∃ fuel, deps.retryPolicy.allowed = fuel + 1 :=
      ⟨deps.retryPolicy.allowed - 1, by rw [RetryPolicy.allowed]; omega⟩
    have hle : deps.retryPolicy.maxAttempts ≤ 1 + fuel := by
      rw [Nat.add_comm, ← hfuel]
      exact le_max_right _ _
    rw [hfuel, Nat.add_right_comm fuel 1 extra]
    exact streamWithRetry_add extra fuel hle
  rounds := fun _ ctx calls extra _ hn ↦
    driveLoop_add ctx extra _ calls hn (Nat.le_add_left _ _)

/-- **What a turn may use.** Whatever it is run against, a turn ends, with no more rounds and
executions than the budget allows, and with no more attempts in a round than the retry policy
allows, but with one where it allows none. -/
theorem enter_withinLimits (deps : TurnEngineDeps σ) (input : TurnInput) (env : σ) (drawn : ℕ) :
    EndByThemselves deps ∧ WithinLimits deps.budget deps.retryPolicy
      (after (enter deps input (initial env drawn))).obs :=
  ⟨endByThemselves deps,
    { rounds := (enter_paced deps input env drawn).allowed
      attempts := (enter_paced deps input env drawn).attempts
      executions := (enter_spent deps input env drawn).allowed }⟩

/-- A policy that allows no attempt. -/
def noAttemptDeps : TurnEngineDeps Unit :=
  { plainDeps with retryPolicy := { defaultRetryPolicy with maxAttempts := 0 } }

/-- A turn that is started with a question. -/
def plainRun : TurnInput :=
  .run
    { threadId := "thr_000001", correlationId := "cor_000001", permissionProfile := .ask
      model := "qwen", instructions := "", history := [], userText := "hi", tools := []
      actor := ⟨.user, "act_000001", none⟩ }

/-- The first attempt is made whatever the policy says. -/
theorem not_attempts_le_maxAttempts :
    ¬ ∀ n ∈ attempts (after (enter noAttemptDeps plainRun (initial () 0))).obs,
      n ≤ noAttemptDeps.retryPolicy.maxAttempts := by
  have hone : attempts (after (enter noAttemptDeps plainRun (initial () 0))).obs = [1] := by
    decide +kernel
  rw [hone]
  exact fun h ↦ absurd (h 1 (List.mem_singleton_self 1)) (by decide)

end TurnEngine

end QwenHarness
