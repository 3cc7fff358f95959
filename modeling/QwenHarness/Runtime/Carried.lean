import QwenHarness.Context.Manager
import QwenHarness.Runtime.Frames

/-!
# What a turn carries through its compactions

With the context manager of the command line a turn may go through any number of reductions and
compactions. What the user asked first is never lost on the way: the first item of every request is
a message of the user that contains it, as a text of its own or in the goal of a summary, or in the
goal of a summary of a summary.
-/

namespace QwenHarness

open Effect

namespace Context

variable {σ : Type} {options : ContextManagerOptions σ} {goal : String}
  {items more : List ModelInputItem}

/-- The first item is a message of the user that contains the goal. -/
def Carries (goal : String) (items : List ModelInputItem) : Prop :=
  ∃ text rest, items = .message .user text :: rest ∧ Contains text goal

theorem Carries.append (h : Carries goal items) (more : List ModelInputItem) :
    Carries goal (items ++ more) := by
  obtain ⟨text, rest, rfl, htext⟩ := h
  exact ⟨text, rest ++ more, rfl, htext⟩

/-- A first message is neither replaced nor left out. -/
theorem Carries.reduced (h : Carries goal items) : Carries goal (reducedItems options items) := by
  obtain ⟨text, rest, rfl, htext⟩ := h
  rw [reducedItems_eq, shortened]
  set start := (reductionOptions options).recentStart (.message .user text :: rest) with hstart
  rcases Nat.eq_zero_or_pos start with hzero | hpos
  · rw [front_eq_nil (hstart ▸ hzero), recent, ← hstart, hzero]
    exact ⟨text, rest, rfl, htext⟩
  · obtain ⟨n, hn⟩ := Nat.exists_eq_add_of_lt hpos
    rw [front, ← hstart, hn, Nat.zero_add, List.take_succ_cons, List.mapIdx_cons,
      List.take_succ_cons]
    exact ⟨text, _, rfl, htext⟩

theorem Carries.firstUserText (h : Carries goal items) {n : ℕ} (hn : 0 < n) :
    ∃ text, firstUserText (items.take n) = some text ∧ Contains text goal := by
  obtain ⟨text, rest, rfl, htext⟩ := h
  obtain ⟨m, rfl⟩ := Nat.exists_eq_add_of_lt hn
  rw [Nat.zero_add, List.take_succ_cons]
  exact ⟨text, rfl, htext⟩

/-- What the summarizer that needs no model drafts. -/
theorem goal_of_drafted {tasksProvider : Call σ (List String)}
    {activeFiles : List ModelInputItem → List String} {draft : SummaryDraft}
    (hsummarizer : options.summarizer = deterministicSummarizer tasksProvider activeFiles)
    (h : Drafted options items draft) : draft.preserved.goal = goalOf items := by
  obtain ⟨boundaryRef, raw, s, s', hraw, hdraft⟩ := h
  rw [hsummarizer, deterministicSummarizer] at hraw
  split at hraw
  · cases hraw
    rw [parseDraft, Option.filter_eq_some_iff] at hdraft
    rw [← Option.some_inj.mp hdraft.1]
    rfl
  · cases hraw

/-- **A preparation carries the goal.** -/
theorem Carries.prepared {tasksProvider : Call σ (List String)}
    {activeFiles : List ModelInputItem → List String} {prep : ContextPreparation}
    (h : Carries goal items) (hgoal : IsTrimmed goal)
    (hsummarizer : options.summarizer = deterministicSummarizer tasksProvider activeFiles)
    (hprep : Prepared options items prep) : Carries goal prep.items := by
  cases hprep with
  | reduced => exact h.reduced
  | compacted draft trigger hlong hdraft =>
    obtain ⟨text, hfirst, htext⟩ := h.reduced.firstUserText (Nat.sub_pos_of_lt hlong)
    refine ⟨_, _, rfl, (contains_renderSummary _ _).trans ?_⟩
    rw [goal_of_drafted hsummarizer hdraft]
    exact contains_goalOf hgoal hfirst htext

end Context

namespace TurnEngine

open Context

variable {σ : Type} {options : ContextManagerOptions σ} {call : PrepareCall} {goal : String}
  {deps : TurnEngineDeps (ManagerState σ)}

/-- The turn asks the context manager of the command line, and tells it of itself what is in the
call. -/
def Managed (options : ContextManagerOptions σ) (call : PrepareCall)
    (deps : TurnEngineDeps (ManagerState σ)) : Prop :=
  deps.context = some fun conversation ↦ preparation options { call with conversation }

/-- What an answered preparation was. -/
theorem prepared_of_answers (hmanaged : Managed options call deps) {s s' : ManagerState σ}
    {conversation : List ModelInputItem} {prep : ContextPreparation}
    (h : Answers deps s (.prepare conversation (.ok prep)) s') :
    Prepared options conversation prep := by
  obtain ⟨prepare, hprepare, h⟩ := h
  rw [hmanaged, Option.some_inj] at hprepare
  rw [← hprepare] at h
  exact prepared_of_prepare (ok_of_preparation h)

/-- Every request so far carried the goal. -/
def SentCarries (goal : String) (w : World σ) : Prop :=
  ∀ request answer, Obs.stream request answer ∈ w.obs → Carries goal request.input

/-- The conversation carries the goal, and so did every request. -/
structure Carrying (goal : String) (w : World σ) : Prop where
  conversation : Carries goal w.turn.conversation
  sent : SentCarries goal w

section

variable {α : Type} {d : TurnEngineDeps σ} {w w' : World σ} {ks : List Kind}

theorem SentCarries.add {o : Obs} (h : SentCarries goal w) (hobs : w'.obs = w.obs ++ [o])
    (ho : ∀ request answer, o = .stream request answer → Carries goal request.input) :
    SentCarries goal w' := by
  intro request answer hmem
  rw [hobs] at hmem
  rcases List.mem_append.mp hmem with hmem | hmem
  · exact h request answer hmem
  · exact ho request answer (List.mem_singleton.mp hmem).symm

theorem SentCarries.leaves (h : SentCarries goal w) (hks : .stream ∉ ks) (hl : Leaves d ks w w') :
    SentCarries goal w' := by
  obtain ⟨seg, hobs, hkinds⟩ := hl.obs
  intro request answer hmem
  rw [hobs] at hmem
  rcases List.mem_append.mp hmem with hmem | hmem
  · exact h request answer hmem
  · exact absurd (hkinds _ hmem) hks

theorem Carrying.leaves (h : Carrying goal w) (hks : .said ∉ ks ∧ .adopted ∉ ks ∧ .stream ∉ ks)
    (hl : Leaves d ks w w') : Carrying goal w' :=
  ⟨(hl.conversation hks.1 hks.2.1).symm ▸ h.conversation, h.sent.leaves hks.2.2 hl⟩

/-- What carries the goal goes on carrying it. -/
def carrying (goal : String) : Frame (World σ) where
  rel w w' := Carrying goal w → Carrying goal w'
  refl _ h := h
  trans h h' hw := h' (h hw)

theorem carrying_of_triple {m : Engine σ α}
    (h : Triple (Carrying goal) m (fun _ ↦ Carrying goal) fun _ ↦ Carrying goal) :
    Within (carrying goal) m := by
  intro w hw
  have hafter := h w hw
  cases hr : m w with
  | ok a w' => rw [hr] at hafter; exact hafter
  | error e w' => rw [hr] at hafter; exact hafter

theorem keeps_carrying {m : Engine σ α} (hm : Within (carrying goal) m) :
    Triple (Carrying goal) m (fun _ ↦ Carrying goal) fun _ ↦ Carrying goal :=
  hm.keeps fun hl h ↦ hl h

theorem carrying_footprint {k : List Kind} {m : Engine σ α} (hm : Footprint d k m)
    (hk : .said ∉ k ∧ .adopted ∉ k ∧ .stream ∉ k) : Within (carrying goal) m :=
  fun w h ↦ h.leaves hk (hm w)

theorem carrying_say {items : List ModelInputItem} :
    Within (carrying goal) (say (σ := σ) items) :=
  fun w h ↦ ⟨h.conversation.append items,
    h.sent.add (World.obs_record w _) fun _ _ ho ↦ absurd ho (by rintro ⟨⟩)⟩

theorem carrying_adopt {items : List ModelInputItem} (h : Carries goal items) :
    Within (carrying goal) (adopt (σ := σ) items) :=
  fun w hw ↦ ⟨h, hw.sent.add (World.obs_record w _) fun _ _ ho ↦ absurd ho (by rintro ⟨⟩)⟩

variable {base : PersistBase}

theorem carrying_tools : ToolFrame d base (carrying goal) where
  quiet hm hk := carrying_footprint hm ⟨hk.1, hk.2.1, hk.2.2.1⟩
  say _ := carrying_say
  begins call := by
    rw [beginSideEffect]
    refine .bind (carrying_footprint (d := d) (k := [.intentFor]) (footprint_ask (fun _ ↦ rfl)
      fun _ ↦ List.mem_of_elem_eq_true rfl) (by decide)) fun intent ↦ ?_
    refine .bind (carrying_footprint (d := d) (k := []) (footprint_draw _) (by decide))
      fun sideEffectId ↦ ?_
    refine .bind (carrying_footprint (footprint_persist .intent rfl (List.mem_singleton_self _))
      (by decide)) fun _ ↦ ?_
    refine .bind (carrying_footprint (footprint_mayExecute (List.mem_singleton_self _))
      (by decide)) fun may ↦ ?_
    split
    · exact .bind (carrying_footprint (footprint_persist .started rfl (List.mem_singleton_self _))
        (by decide)) fun _ ↦ .pure _
    · refine .bind (carrying_footprint (footprint_persist .settled rfl
        (List.mem_singleton_self _)) (by decide)) fun _ ↦ ?_
      exact .bind carrying_say fun _ ↦ .pure _
  settles _ _ := carrying_footprint (footprint_settle (List.mem_singleton_self _)) (by decide)

/-- A request with the goal may be repeated. -/
theorem carrying_streamWithRetry {request : ModelRequest} (hrequest : Carries goal request.input)
    {startedAt : ℤ} (fuel : ℕ) {attempt : ℕ} :
    Within (carrying goal) (streamWithRetry d request startedAt attempt fuel) := by
  induction fuel generalizing attempt with
  | zero => exact .throw _
  | succ fuel ih =>
    rw [streamWithRetry]
    have hask : ∀ {w w' : World σ} {answer : Except Thrown (List ProviderStreamEvent)},
        Carrying goal w → Adds d (.stream request answer) w w' → Carrying goal w' := by
      refine fun {w w' answer} h ha ↦ ⟨?_, h.sent.add ha.obs fun _ _ ho ↦ ?_⟩
      · rw [ha.conversation (by rintro ⟨⟩) (by rintro ⟨⟩)]
        exact h.conversation
      · cases ho
        exact hrequest
    refine .tryCatch (.bind (carrying_of_triple (ask_rule (fun _ ↦ rfl) (fun _ h ha ↦ hask h ha)
      fun _ h ha ↦ hask h ha)) fun events ↦ .pure _) fun err ↦ ?_
    refine .bind (carrying_footprint (footprint_signalAborted (List.mem_singleton_self _))
      (by decide)) fun aborted ↦ ?_
    split
    · exact .throw _
    · cases err with
      | other message => exact .throw _
      | harness error =>
        refine .bind (carrying_footprint (d := d) (k := []) footprint_now (by decide)) fun now ↦ ?_
        refine .bind (carrying_footprint (d := d) (k := []) (footprint_read fun _ ↦
          .inr (.inl rfl)) (by decide)) fun r ↦ ?_
        refine .bind (.orThrow _) fun decision ↦ ?_
        cases decision with
        | error reason => exact .throw _
        | ok delayMs =>
          exact .bind (carrying_footprint (d := d) (k := [.sleep]) (footprint_ask (fun _ ↦ rfl)
            fun _ ↦ List.mem_of_elem_eq_true rfl) (by decide)) fun _ ↦ ih

theorem carrying_requestRound {ctx : DriveContext} :
    Within (carrying goal) (requestRound d base ctx) := by
  refine carrying_of_triple ?_
  rw [requestRound]
  refine .bind (s := fun turn w ↦ Carries goal turn.conversation ∧ Carrying goal w)
    (fun _ h ↦ ⟨h.conversation, h⟩) fun turn ↦ .assuming fun hturn ↦ keeps_carrying ?_
  refine .bind (carrying_footprint (footprint_persist .requestStarted rfl
    (List.mem_singleton_self _)) (by decide)) fun _ ↦ ?_
  refine .bind (carrying_footprint (d := d) (k := []) footprint_now (by decide))
    fun startedAt ↦ ?_
  refine .bind (carrying_streamWithRetry hturn _) fun round ↦ ?_
  refine .bind (carrying_footprint (d := d) (k := []) (footprint_modifyTurn (fun _ ↦ rfl)
    (fun _ ↦ rfl) fun _ ↦ rfl) (by decide)) fun _ ↦ ?_
  refine .bind (carrying_footprint (footprint_persist .request rfl (List.mem_singleton_self _))
    (by decide)) fun _ ↦ ?_
  refine .bind (carrying_footprint (footprint_persistItems fun body hb ↦
    kind_of_mem_roundItems hb) (by decide)) fun _ ↦ ?_
  exact .bind (.when fun _ ↦ carrying_footprint (d := d) (k := []) (footprint_modifyTurn
    (fun _ ↦ rfl) (fun _ ↦ rfl) fun _ ↦ rfl) (by decide)) fun _ ↦ .pure _

theorem carrying_drainNotifications : Within (carrying goal) (drainNotifications d) := by
  rw [drainNotifications]
  cases hdrain : d.notifications with
  | none => exact .pure ()
  | some drain =>
    refine .bind (carrying_footprint (d := d) (k := []) (footprint_read fun _ ↦
      .inr (.inr ⟨drain, hdrain, rfl⟩)) (by decide)) fun drained ↦ ?_
    exact .bind carrying_say fun _ ↦ .when fun _ ↦
      carrying_footprint (footprint_fireLifecycle (List.mem_singleton_self _)) (by decide)

end

section

variable {tasksProvider : Call σ (List String)} {activeFiles : List ModelInputItem → List String}
  {base : PersistBase} (hmanaged : Managed options call deps)
  (hsummarizer : options.summarizer = deterministicSummarizer tasksProvider activeFiles)
  (hgoal : IsTrimmed goal)

include hmanaged hsummarizer hgoal

/-- What is prepared carries the goal as well. -/
theorem carrying_prepareContext : Within (carrying goal) (prepareContext deps base) := by
  refine carrying_of_triple ?_
  rw [prepareContext, hmanaged]
  refine .bind (s := fun turn w ↦ Carries goal turn.conversation ∧ Carrying goal w)
    (fun _ h ↦ ⟨h.conversation, h⟩) fun turn ↦ .assuming fun hturn ↦ ?_
  refine .bind (s := fun prep w ↦ Carries goal prep.items ∧ Carrying goal w)
    (ask_rule (fun _ ↦ ⟨_, hmanaged, rfl⟩) (fun prep h ha ↦ ⟨?_, ?_⟩) fun e h ha ↦ ?_)
    fun prep ↦ .assuming fun hprep ↦ keeps_carrying ?_
  · exact hturn.prepared hgoal hsummarizer (prepared_of_answers hmanaged ha.answers)
  · exact h.leaves (by decide) (ha.leaves (List.mem_singleton_self Kind.preparation))
  · exact h.leaves (by decide) (ha.leaves (List.mem_singleton_self Kind.preparation))
  · refine .bind (carrying_footprint (footprint_signalAborted (List.mem_singleton_self _))
      (by decide)) fun aborted ↦ ?_
    split
    · refine .bind (carrying_footprint footprint_cancel (by decide)) fun _ ↦ ?_
      exact .bind (carrying_footprint (d := deps) (k := []) footprint_setTerminalReason
        (by decide)) fun _ ↦ .pure _
    · refine .bind (carrying_adopt hprep) fun _ ↦ ?_
      exact .bind (.when fun _ ↦ carrying_footprint (footprint_fireLifecycle
        (List.mem_singleton_self _)) (by decide)) fun _ ↦ .pure _

theorem carrying_modelPhase {ctx : DriveContext} :
    Within (carrying goal) (modelPhase deps base ctx) := by
  rw [modelPhase]
  refine .bind (carrying_footprint (d := deps) (k := []) footprint_now (by decide)) fun now ↦ ?_
  refine .bind (carrying_footprint (d := deps) (k := [.modelCall]) (footprint_useBudget
    (.inl (List.mem_singleton_self _)) (.inr fun b ↦ b.toolCalls_beforeModelCall))
    (by decide)) fun verdict ↦ ?_
  split
  · refine .bind (carrying_footprint (d := deps) (footprint_note (fun _ ↦ rfl)
      (List.mem_singleton_self Kind.budgetStop)) (by decide)) fun _ ↦ ?_
    exact carrying_footprint footprint_endFor (by decide)
  · refine .bind (carrying_footprint (d := deps) (footprint_transitionUnless
      (List.mem_singleton_self _)) (by decide)) fun _ ↦ ?_
    refine .bind (carrying_footprint (footprint_persistState (List.mem_singleton_self _))
      (by decide)) fun _ ↦ ?_
    refine .bind (carrying_prepareContext hmanaged hsummarizer hgoal) fun goes ↦ ?_
    split
    · refine .bind carrying_requestRound fun round ↦ ?_
      split
      · exact carrying_footprint footprint_endFor (by decide)
      · exact .bind (.when fun _ ↦ carrying_say) fun _ ↦ .bind carrying_say fun _ ↦ .pure _
    · exact .pure _

theorem carrying_driveLoop (ctx : DriveContext) (fuel : ℕ) (calls : List NormalizedToolCall) :
    Within (carrying goal) (driveLoop deps base ctx fuel calls) := by
  induction fuel generalizing calls with
  | zero => exact .pure _
  | succ fuel ih =>
    rw [driveLoop]
    refine .bind (carrying_footprint (footprint_signalAborted (List.mem_singleton_self _))
      (by decide)) fun aborted ↦ ?_
    split
    · exact .bind (carrying_footprint footprint_cancel (by decide)) fun _ ↦
        carrying_footprint (d := deps) (k := []) footprint_setTerminalReason (by decide)
    · refine .bind (within_toolPhase carrying_tools calls) fun goes ↦ ?_
      split
      · refine .bind (carrying_modelPhase hmanaged hsummarizer hgoal) fun next ↦ ?_
        split
        · exact ih _
        · exact .pure _
      · exact .pure _

theorem carrying_drive (ctx : DriveContext) (calls : List NormalizedToolCall) :
    Within (carrying goal) (drive deps base ctx calls) :=
  .bind (.tryCatch (carrying_driveLoop hmanaged hsummarizer hgoal ctx _ calls) fun _ ↦
    carrying_footprint footprint_driveCatch (by decide)) fun _ ↦
    carrying_footprint (d := deps) (k := []) (footprint_get _) (by decide)

end

/-- What a turn opens with: what it was left with and what it is told. -/
def openingOf : TurnInput → List ModelInputItem
  | .run input => input.history ++ [.message .user input.userText]
  | .resume input => input.history

/-- **What the user asked first is never lost.** Through all reductions and compactions of a turn,
the first item of every request is a message of the user that contains it. -/
theorem enter_carries (hmanaged : Managed options call deps)
    {tasksProvider : Call σ (List String)} {activeFiles : List ModelInputItem → List String}
    (hsummarizer : options.summarizer = deterministicSummarizer tasksProvider activeFiles)
    (input : TurnInput) {first : String} {rest : List ModelInputItem}
    (hopening : openingOf input = .message .user first :: rest) (env : ManagerState σ) (drawn : ℕ)
    {request : ModelRequest} {answer : Except Thrown (List ProviderStreamEvent)}
    (hrequest : .stream request answer ∈ (after (enter deps input (initial env drawn))).obs) :
    Carries (trim first) request.input := by
  have hopens : Carries (trim first) (openingOf input) :=
    ⟨first, rest, hopening, contains_trim first⟩
  have hnone : ∀ {w : World (ManagerState σ)}, w.trace = [] → SentCarries (trim first) w :=
    fun {w} hw request answer hmem ↦ by
      rw [World.obs, hw] at hmem
      exact absurd hmem List.not_mem_nil
  have hdrive : ∀ {base : PersistBase} (ctx : DriveContext) (calls : List NormalizedToolCall),
      Triple (Carrying (trim first)) (drive deps base ctx calls) (fun _ ↦ SentCarries (trim first))
        fun _ ↦ SentCarries (trim first) := fun ctx calls ↦
    (keeps_carrying (carrying_drive hmanaged hsummarizer (isTrimmed_trim first) ctx calls)).conseq
      (fun _ h ↦ h) (fun _ _ h ↦ h.sent) fun _ _ h ↦ h.sent
  have henter : Triple (fun w : World (ManagerState σ) ↦ w.trace = []) (enter deps input)
      (fun _ ↦ SentCarries (trim first)) fun _ ↦ SentCarries (trim first) := by
    cases input with
    | run input =>
      refine .bind (s := fun _ (w : World (ManagerState σ)) ↦ w.trace = []) (fun _ h ↦ h)
        fun now ↦ ?_
      refine .bind (s := fun _ (w : World (ManagerState σ)) ↦ w.trace = []) (fun _ h ↦ h)
        fun turnId ↦ ?_
      -- The history may be empty, so the goal is carried only once the user has spoken.
      refine .bind (s := fun _ w ↦ w.turn.conversation = input.history ∧
        SentCarries (trim first) w) (fun w hw ↦ ⟨rfl, hnone hw⟩) fun _ ↦ ?_
      refine .bind (Triple.conseq (Within.keeps (footprint_persist .turnStarted rfl
          (List.mem_singleton_self Kind.turnStarted)) fun hl h ↦
            ⟨(Leaves.conversation hl (by decide) (by decide)).trans h.1,
              h.2.leaves (by decide) hl⟩) (fun _ h ↦ h) (fun _ _ h ↦ h) fun _ _ h ↦ h.2)
        fun _ ↦ ?_
      refine .bind (s := fun _ ↦ Carrying (trim first)) (fun w h ↦ ⟨?_, ?_⟩) fun _ ↦ ?_
      · change Carries (trim first) (w.turn.conversation ++ _)
        rw [h.1]
        exact hopens
      · exact h.2.add (World.obs_record w _) fun _ _ ho ↦ absurd ho (by rintro ⟨⟩)
      · refine .bind ((keeps_carrying carrying_drainNotifications).conseq (fun _ h ↦ h)
          (fun _ _ h ↦ h) fun _ _ h ↦ h.sent) fun _ ↦ hdrive _ _
    | resume input =>
      refine .bind (s := fun _ (w : World (ManagerState σ)) ↦ w.trace = []) (fun _ h ↦ h)
        fun now ↦ ?_
      refine .bind (s := fun _ ↦ Carrying (trim first)) (fun w hw ↦ ⟨hopens, hnone hw⟩)
        fun _ ↦ hdrive _ _
  have hafter := henter (initial env drawn) rfl
  cases hr : enter deps input (initial env drawn) with
  | ok a w => rw [hr] at hafter hrequest; exact hafter _ _ hrequest
  | error e w => rw [hr] at hafter hrequest; exact hafter _ _ hrequest

/-- A window of forty tokens around the plain outside. -/
def managedDeps : TurnEngineDeps (ManagerState Unit) where
  stream _ s := (.ok [.textDone "" "done", .done .stop], s)
  tools :=
    { evaluate := fun _ toolName _ s ↦
        (.ok ⟨.allow, toolName, toolName, .low, "allowed", "default"⟩, s)
      execute := fun _ s ↦ (.ok ⟨true, "ok", none, none, none, false, 0⟩, s)
      intentFor := fun toolName _ s ↦ (.ok ⟨toolName, false, .other, toolName⟩, s)
      planBatches := none }
  sink := { append := fun _ s ↦ (.ok (), s), mayExecute := fun _ _ ↦ ⟨true, ""⟩ }
  ids := tallyIds
  now s := (0, s)
  sleep _ s := (.ok (), s)
  aborted s := (false, s)
  budget := defaultBudget
  rng s := (0, s)
  retryPolicy := defaultRetryPolicy
  hooks := none
  approvals := none
  context := some fun conversation ↦ preparation smallWindow { twoReads with conversation }
  notifications := none

/-- The turn goes on after the two reads. -/
def afterTwoReads : TurnInput :=
  .resume
    { threadId := "thr_000001", turnId := "trn_000001", correlationId := "cor_000001"
      permissionProfile := .ask, model := "qwen", instructions := ""
      history := twoReads.conversation, pendingCalls := [], tools := []
      actor := ⟨.user, "act_000001", none⟩ }

/-- Whether a compacted conversation was handed back. -/
def Obs.isCompaction : Obs → Bool
  | .prepare _ (.ok prep) => prep.compacted
  | _ => false

/-- The conversation is compacted, and the request still asks to compare the two files. -/
theorem enter_carries_twoReads :
    (after (enter managedDeps afterTwoReads (initial .new 0))).obs.any Obs.isCompaction = true ∧
      ∀ request answer,
        .stream request answer ∈ (after (enter managedDeps afterTwoReads (initial .new 0))).obs →
          Carries (trim "Compare the two files.") request.input :=
  ⟨by decide +kernel, fun _ _ h ↦ enter_carries
    (show Managed smallWindow twoReads managedDeps from rfl)
    (show smallWindow.summarizer = deterministicSummarizer (fun s ↦ (.ok [], s)) fun _ ↦ [] from
      rfl)
    afterTwoReads rfl .new 0 h⟩

end TurnEngine

end QwenHarness
