import QwenHarness.Hooks.Engine
import QwenHarness.Runtime.Authorization

/-!
# What a restriction of a hook does

Every execution of a tool comes after its call was put to the hooks and not blocked. With the hooks
of the command line that means that no handler which ran for the call answered with a block. One that
answered with a denial does not stand in the way.
-/

/-!
## The hooks of the command line

The turn engine asks for a gate before a tool runs, and for a stop after. The adapter runs the
handlers of the event and hands on what it takes out of the folded result. Of a `PreToolUse` run it
takes whether the action is blocked, and nothing else.

So a handler that blocks stops the call, and one that denies does not, although both make the folded
decision `deny`. The last section says that this is the whole difference.
-/

namespace QwenHarness.Cli

open Hooks Effect TurnEngine

variable {σ : Type}

/-! ## The adapter -/

/-- Reported for every handler that ran. -/
structure HookFired where
  event : HookEvent
  handler : String
  outcome : QwenHarness.HookOutcome
  durationMs : ℤ

/-- The five values that the durable record has for an outcome. -/
def foldOutcome : AuditOutcome → QwenHarness.HookOutcome
  | .outcome .block => .block
  | .outcome .deny => .block
  | .outcome .context => .context
  | .outcome .modify => .modify
  | .outcome .stop => .stop
  | _ => .continue

structure HookRuntime (σ : Type) where
  registry : HookRegistry
  invoke : Invoke σ
  now : σ → ℤ × σ
  correlationId : String
  onFired : Option (HookFired → Call σ Unit)

namespace HookRuntime

variable (runtime : HookRuntime σ)

/-- Report the handlers that ran, one after the other. -/
def report (event : HookEvent) (durationMs : ℤ) : List HookInvocationRecord → Call σ Unit
  | [], s => (.ok (), s)
  | record :: records, s =>
    if record.outcome = .skipped then report event durationMs records s
    else
      match runtime.onFired with
      | none => report event durationMs records s
      | some onFired =>
        match onFired ⟨event, record.hookId, foldOutcome record.outcome, durationMs⟩ s with
        | (.ok _, s) => report event durationMs records s
        | (.error e, s) => (.error e, s)

def run (invocation : HookInvocation) : Call σ FoldedHookResult := fun s ↦
  let (started, s) := runtime.now s
  let (result, s) := runEngine runtime.registry runtime.invoke invocation s
  let (ended, s) := runtime.now s
  match runtime.report invocation.event (ended - started) result.audit s with
  | (.ok _, s) => (.ok result, s)
  | (.error e, s) => (.error e, s)

/-- An event without a tool input. -/
def plainInvocation (event : HookEvent) (toolName : Option String)
    (data : List (String × Codec.Value)) : HookInvocation where
  event := event
  toolName := toolName
  toolInput := none
  paths := none
  currentDecision := none
  data := data
  correlationId := some runtime.correlationId

def preToolInvocation (toolName : String) (arguments : Arguments) : HookInvocation :=
  { runtime.plainInvocation .preToolUse (some toolName) [] with toolInput := some arguments }

/-- Of the folded result only `blocked` is read. -/
def preToolUse (toolName : String) (arguments : Arguments) : Call σ HookGate := fun s ↦
  match runtime.run (runtime.preToolInvocation toolName arguments) s with
  | (.ok result, s) => (.ok ⟨result.blocked, result.blockReason.map fun r ↦ r.reason.message⟩, s)
  | (.error e, s) => (.error e, s)

def fileMutatingTools : List String := ["write_file", "edit_file", "apply_patch"]

def postToolUse (toolName : String) (ok : Bool) : Call σ Bool := fun s ↦
  match runtime.run (runtime.plainInvocation (if ok then .postToolUse else .postToolUseFailure)
      (some toolName) [("ok", .bool ok)]) s with
  | (.error e, s) => (.error e, s)
  | (.ok result, s) =>
    if ok = true ∧ toolName ∈ fileMutatingTools then
      -- A throw from this one changes nothing.
      let (_, s) := runtime.run (runtime.plainInvocation .fileChanged (some toolName)
        [("tool", .str toolName)]) s
      (.ok result.stopped, s)
    else (.ok result.stopped, s)

/-- The hook event of a lifecycle event, and its data. One of them has none. -/
def lifecycleInvocation : LifecycleEvent → Option HookInvocation
  | .queuedNotifications _ => none
  | .postToolBatch tools =>
    some (runtime.plainInvocation .postToolBatch none [("tools", .int tools)])
  | .postCompact trigger =>
    some (runtime.plainInvocation .postCompact none
      (trigger.toList.map fun t ↦ ("trigger", .str t.name)))
  | .permissionDenied toolName reason =>
    some (runtime.plainInvocation .permissionDenied none
      [("toolName", .str toolName), ("reason", .str reason)])
  | .permissionRequest toolName risk =>
    some (runtime.plainInvocation .permissionRequest none
      [("toolName", .str toolName), ("risk", .str risk.name)])
  | .stopFailure state reason =>
    some (runtime.plainInvocation .stopFailure none
      [("state", .str state.name), ("reason", .str reason.name)])
  | .stop state reason =>
    some (runtime.plainInvocation .stop none
      [("state", .str state.name), ("reason", .str reason.name)])

def fireLifecycle (event : LifecycleEvent) : Call σ Unit := fun s ↦
  match runtime.lifecycleInvocation event with
  | none => (.ok (), (runtime.now (runtime.now s).2).2)
  | some invocation =>
    match runtime.run invocation s with
    | (.ok _, s) => (.ok (), s)
    | (.error e, s) => (.error e, s)

def gates : TurnHooks σ where
  preToolUse := runtime.preToolUse
  postToolUse := runtime.postToolUse
  fireLifecycle := some runtime.fireLifecycle

/-- The hooks of a turn. Without a registration there are none. -/
def turnHooks : Option (TurnHooks σ) :=
  if runtime.registry.rows = [] then none else some runtime.gates

/-! ### What a run returns -/

variable {runtime} {invocation : HookInvocation} {s s' : σ}

/-- The state the handlers start in is the one after the clock was read. -/
theorem run_ok {result : FoldedHookResult} (h : runtime.run invocation s = (.ok result, s')) :
    result = (runEngine runtime.registry runtime.invoke invocation (runtime.now s).2).1 := by
  simp only [run] at h
  split at h
  · exact (Except.ok.inj (Prod.mk.inj h).1).symm
  · cases (Prod.mk.inj h).1

end HookRuntime

end QwenHarness.Cli

namespace QwenHarness.Cli

open Hooks Effect TurnEngine

variable {σ : Type}

/-! ## What is asked -/

/-- The folded result for a call that is put to the hooks in this state. -/
def folded (runtime : HookRuntime σ) (toolName : String) (arguments : Arguments) (s : σ) :
    FoldedHookResult :=
  (runEngine runtime.registry runtime.invoke (runtime.preToolInvocation toolName arguments)
    (runtime.now s).2).1

/-- A handler that ran for the call blocked or denied it. -/
def Restricted (runtime : HookRuntime σ) (call : NormalizedToolCall) (s : σ) : Prop :=
  (folded runtime call.toolName call.arguments s).Gave .block ∨
    (folded runtime call.toolName call.arguments s).Gave .deny

/-- The entries since the pass began. -/
def currentEntries (trace : List (Entry σ)) : List (Entry σ) :=
  trace.rtakeWhile fun e ↦ !e.obs.isPass

/-- The entry puts the call to the hooks. -/
def Offers (call : NormalizedToolCall) (e : Entry σ) : Prop :=
  ∃ answer, e.obs = .preToolUse call answer

/-- A call that was put to the hooks is executed only if it was put to them, in the same pass,
without being restricted. -/
def RestrictionKept (runtime : HookRuntime σ) (trace : List (Entry σ)) : Prop :=
  ∀ (i : ℕ) (sideEffectId : String) (call : NormalizedToolCall)
    (answer : Except Thrown ToolExecutionResult),
    (trace.map Entry.obs)[i]? = some (.execute sideEffectId call answer) →
      (∃ e ∈ currentEntries (trace.take i), Offers call e) →
        ∃ e ∈ currentEntries (trace.take i), Offers call e ∧ ¬ Restricted runtime call e.env

/-- Where the hooks answer at all, no handler denies unless one blocks. -/
def DeniesOnlyWithBlock (runtime : HookRuntime σ) : Prop :=
  ∀ toolName arguments s gate, (runtime.preToolUse toolName arguments s).1 = .ok gate →
    (folded runtime toolName arguments s).Gave .deny →
      (folded runtime toolName arguments s).Gave .block

theorem restricts_folded (runtime : HookRuntime σ) (toolName : String) (arguments : Arguments)
    (s : σ) : (folded runtime toolName arguments s).Restricts .allow := by
  have hbefore : isPostToolEvent (runtime.preToolInvocation toolName arguments).event = false := rfl
  exact restricts_runEngine runtime.registry runtime.invoke hbefore (runtime.now s).2

/-- What the gate reads. -/
theorem blocked_iff (runtime : HookRuntime σ) (toolName : String) (arguments : Arguments) (s : σ) :
    (folded runtime toolName arguments s).blocked = true ↔
      (folded runtime toolName arguments s).Gave .block :=
  (restricts_folded runtime toolName arguments s).blocked_iff

/-- The gate answers as the fold says, if it answers. -/
theorem blocked_of_preToolUse {runtime : HookRuntime σ} {toolName : String} {arguments : Arguments}
    {s s' : σ} {gate : HookGate} (h : runtime.preToolUse toolName arguments s = (.ok gate, s')) :
    gate.blocked = (folded runtime toolName arguments s).blocked := by
  rw [HookRuntime.preToolUse] at h
  cases hr : runtime.run (runtime.preToolInvocation toolName arguments) s with
  | mk answer s₁ =>
    rw [hr] at h
    cases answer with
    | error e => cases (Prod.mk.inj h).1
    | ok result =>
      obtain rfl := Except.ok.inj (Prod.mk.inj h).1
      rw [HookRuntime.run_ok hr]
      rfl

/-! ## The records of a turn -/

theorem map_obs_currentEntries (trace : List (Entry σ)) :
    (currentEntries trace).map Entry.obs = currentPass (trace.map Entry.obs) := by
  have htake : (trace.map Entry.obs).reverse.takeWhile (fun o ↦ !o.isPass) =
      (trace.reverse.takeWhile fun e ↦ !e.obs.isPass).map Entry.obs := by
    rw [← List.map_reverse, List.takeWhile_map]
    rfl
  rw [currentEntries, currentPass, List.rtakeWhile, List.rtakeWhile, htake, List.map_reverse]

theorem mem_of_mem_currentEntries {trace : List (Entry σ)} {e : Entry σ}
    (h : e ∈ currentEntries trace) : e ∈ trace :=
  (List.rtakeWhile_suffix _ _).subset h

/-! ## Where no denial stands alone -/

/-- **What blocks is not executed**, whatever the rest of the outside does. -/
theorem restrictionKept_of_deniesOnlyWithBlock {runtime : HookRuntime σ}
    (h : DeniesOnlyWithBlock runtime) (deps : TurnEngineDeps σ) (input : TurnInput) (env : σ)
    (drawn : ℕ) : RestrictionKept runtime
      (after (enter { deps with hooks := runtime.turnHooks } input (initial env drawn))).trace := by
  intro i sideEffectId call answer hi hoffered
  have hlinked := enter_linked { deps with hooks := runtime.turnHooks } input env drawn
  have hauthorized := enter_onlyAuthorized { deps with hooks := runtime.turnHooks } input env drawn
    i sideEffectId call answer hi
  obtain ⟨before, intended, between, started, rest, intent, hpass, hhooks, -⟩ := hauthorized.begun
  rw [World.obs] at hpass
  generalize (after (enter { deps with hooks := runtime.turnHooks } input
    (initial env drawn))).trace = trace at *
  -- The call was offered, so there are hooks.
  obtain ⟨e₀, he₀, answer₀, hobs₀⟩ := hoffered
  obtain ⟨s₀, ha₀⟩ := hlinked.answers (List.mem_of_mem_take (mem_of_mem_currentEntries he₀))
  rw [hobs₀] at ha₀
  obtain ⟨hooks, hsome, -⟩ := ha₀
  obtain ⟨o, ho, hoffer⟩ := hhooks (Option.isSome_iff_exists.mpr ⟨hooks, hsome⟩)
  have hmem : o ∈ (currentEntries (trace.take i)).map Entry.obs := by
    rw [map_obs_currentEntries, List.map_take, hpass]
    exact List.mem_append_left _ ho
  obtain ⟨e, he, rfl⟩ := List.mem_map.mp hmem
  obtain ⟨s', ha⟩ := hlinked.answers (List.mem_of_mem_take (mem_of_mem_currentEntries he))
  refine ⟨e, he, ?_⟩
  cases hobs : e.obs with
  | preToolUse c answer =>
    rw [hobs] at ha hoffer
    cases answer with
    | error e => exact hoffer.elim
    | ok gate =>
      obtain ⟨rfl, hgate⟩ := hoffer
      obtain ⟨hooks', hsome', hanswer⟩ := ha
      refine ⟨⟨.ok gate, hobs⟩, ?_⟩
      have hruntime : hooks'.preToolUse = runtime.preToolUse := by
        have hturn : runtime.turnHooks = some hooks' := hsome'
        rw [HookRuntime.turnHooks] at hturn
        split_ifs at hturn
        cases hturn
        rfl
      rw [hruntime] at hanswer
      rw [blocked_of_preToolUse hanswer.symm] at hgate
      have hblock := (blocked_iff runtime c.toolName c.arguments e.env).not.mp
        (Bool.eq_false_iff.mp hgate)
      rintro (hb | hd)
      · exact hblock hb
      · exact hblock (h _ _ _ gate (congrArg Prod.fst hanswer).symm hd)
  | _ =>
    rw [hobs] at hoffer
    exact hoffer.elim

/-! ## Where one does -/

/-- A trace that goes on keeps what it has done. -/
theorem RestrictionKept.of_prefix {runtime : HookRuntime σ} {trace trace' : List (Entry σ)}
    (h : RestrictionKept runtime trace') (hinit : trace <+: trace') :
    RestrictionKept runtime trace := by
  obtain ⟨rest, rfl⟩ := hinit
  intro i sideEffectId call answer hi hoffered
  have hlt : i < trace.length := by
    obtain ⟨hlt, -⟩ := List.getElem?_eq_some_iff.mp hi
    rwa [List.length_map] at hlt
  have htake : (trace ++ rest).take i = trace.take i := List.take_append_of_le_length hlt.le
  have hi' : ((trace ++ rest).map Entry.obs)[i]? = some (.execute sideEffectId call answer) := by
    rw [List.map_append, List.getElem?_append_left (by rwa [List.length_map])]
    exact hi
  have hkept := h i sideEffectId call answer hi'
  rw [htake] at hkept
  exact hkept hoffered

section Open

variable (hooks : TurnHooks σ)

/-- An outside where nothing stands in the way but the hooks. -/
def openDeps : TurnEngineDeps σ where
  stream _ s := (.ok [.done .stop], s)
  tools :=
    { evaluate := fun _ toolName _ s ↦
        (.ok ⟨.allow, toolName, toolName, .low, "allowed", "default"⟩, s)
      execute := fun _ s ↦ (.ok ⟨true, "ok", none, none, none, false, 0⟩, s)
      intentFor := fun toolName _ s ↦ (.ok ⟨toolName, false, .other, toolName⟩, s)
      planBatches := none }
  sink := { append := fun _ s ↦ (.ok (), s), mayExecute := fun _ _ ↦ ⟨true, ""⟩ }
  ids := tallyIds
  now s := (0, s)
  sleep _ s := (.ok (), s)
  aborted s := (false, s)
  budget := defaultBudget
  rng s := (0, s)
  retryPolicy := defaultRetryPolicy
  hooks := some hooks
  approvals := none
  context := none
  notifications := none

def openCall (toolName : String) (arguments : Arguments) : NormalizedToolCall :=
  ⟨"call_1", "call_1", toolName, "{}", arguments⟩

variable {toolName : String} {arguments : Arguments} {s s' : σ} {gate : HookGate}

/-- What follows is only added to the trace. -/
def grows : Frame (World σ) where
  rel w w' := w.trace <+: w'.trace
  refl _ := List.prefix_refl _
  trans := List.IsPrefix.trans

theorem within_grows {deps : TurnEngineDeps σ} {ks : List Kind} {α : Type} {m : Engine σ α}
    (h : Footprint deps ks m) : Within grows m :=
  Within.mono h fun hl ↦ by
    obtain ⟨seg, htrace, -⟩ := hl.records
    exact ⟨seg, htrace.symm⟩

/-- The first part breaks it, so the whole does. -/
theorem breaks_bind {runtime : HookRuntime σ} {α β : Type} {m : Engine σ α} {f : α → Engine σ β}
    {w : World σ} (hf : ∀ a, Within grows (f a))
    (h : ¬ RestrictionKept runtime (after (m w)).trace) :
    ¬ RestrictionKept runtime (after ((m >>= f) w)).trace := by
  refine fun hkept ↦ h (hkept.of_prefix ?_)
  rw [bind_apply]
  cases m w with
  | ok a w' => exact hf a w'
  | error e w' => exact List.prefix_refl _

theorem breaks_tryCatch {runtime : HookRuntime σ} {α : Type} {m : Engine σ α}
    {f : Thrown → Engine σ α} {w : World σ} (hf : ∀ e, Within grows (f e))
    (h : ¬ RestrictionKept runtime (after (m w)).trace) :
    ¬ RestrictionKept runtime (after ((MonadExcept.tryCatch m f : Engine σ α) w)).trace := by
  refine fun hkept ↦ h (hkept.of_prefix ?_)
  rw [tryCatch_apply]
  cases m w with
  | ok a w' => exact List.prefix_refl _
  | error e w' => exact hf e w'

theorem bind_of_ok {α β : Type} {m : Engine σ α} {f : α → Engine σ β} {w w' : World σ} {a : α}
    (hm : m w = .ok a w') : (m >>= f) w = f a w' := by
  rw [bind_apply, hm]

/-- The first part returned, and what comes then breaks it. -/
theorem breaks_after {runtime : HookRuntime σ} {α β : Type} {m : Engine σ α} {f : α → Engine σ β}
    {w w' : World σ} {a : α} (hm : m w = .ok a w')
    (h : ¬ RestrictionKept runtime (after (f a w')).trace) :
    ¬ RestrictionKept runtime (after ((m >>= f) w)).trace := by
  rwa [bind_of_ok hm]

theorem within_driveLoop (deps : TurnEngineDeps σ) (base : PersistBase) (ctx : DriveContext)
    (fuel : ℕ) (calls : List NormalizedToolCall) :
    Within grows (driveLoop deps base ctx fuel calls) := by
  induction fuel generalizing calls with
  | zero => exact .pure ()
  | succ fuel ih =>
    rw [driveLoop]
    refine .bind (within_grows (footprint_signalAborted (List.mem_singleton_self _)))
      fun aborted ↦ ?_
    split
    · exact .bind (within_grows footprint_cancel) fun _ ↦
        within_grows (footprint_setTerminalReason : Footprint deps endKinds _)
    · refine .bind (within_grows footprint_toolPhase) fun goes ↦ ?_
      split
      · refine .bind (within_grows footprint_modelPhase) fun next ↦ ?_
        cases next with
        | some calls => exact ih calls
        | none => exact .pure ()
      · exact .pure ()

variable (base : PersistBase) (ctx : DriveContext)

/-- The record that is kept of a gate that is open. -/
def gateRecord (toolName : String) : EventStore.AppendInput where
  threadId := base.threadId
  payload := .hookFired "PreToolUse" toolName .continue 0
  actor := base.actor
  correlationId := base.correlationId
  causationId := none
  turnId := some base.turnId
  itemId := none
  permissionProfile := base.permissionProfile

/-- Put to the hooks and not blocked. -/
theorem preToolUse_open {w : World σ}
    (h : hooks.preToolUse toolName arguments w.env = (.ok gate, s')) (hgate : gate.blocked = false) :
    preToolUse (openDeps hooks) base (openCall toolName arguments) w =
      .ok false
        ({ w.record (.preToolUse (openCall toolName arguments) (.ok gate)) with env := s' }.record
          (.append (gateRecord base toolName) (.ok ()))) := by
  have hask : ask (.preToolUse (openCall toolName arguments))
      (hooks.preToolUse toolName arguments) w =
      .ok gate { w.record (.preToolUse (openCall toolName arguments) (.ok gate)) with env := s' } := by
    rw [ask, h]
  obtain ⟨blocked, reason⟩ := gate
  obtain rfl : blocked = false := hgate
  exact (bind_of_ok hask).trans rfl

/-- Neither the begin of a pass nor an offer. -/
def Plain (e : Entry σ) : Prop := e.obs.isPass = false ∧ ∀ call, ¬ Offers call e

/-- A part that returns, leaves the outside and adds only plain entries. -/
def Passes {α : Type} (m : Engine σ α) (w : World σ) (P : α → Prop) : Prop :=
  ∃ a w' seg, m w = .ok a w' ∧ P a ∧ w'.env = w.env ∧ w'.trace = w.trace ++ seg ∧
    ∀ e ∈ seg, Plain e

theorem Passes.bind {α β : Type} {m : Engine σ α} {f : α → Engine σ β} {w : World σ} {P : α → Prop}
    {Q : β → Prop} (hm : Passes m w P)
    (hf : ∀ a, P a → ∀ w' : World σ, w'.env = w.env → Passes (f a) w' Q) :
    Passes (m >>= f) w Q := by
  obtain ⟨a, w', seg, hok, ha, henv, htrace, hplain⟩ := hm
  obtain ⟨b, w'', seg', hok', hb, henv', htrace', hplain'⟩ := hf a ha w' henv
  refine ⟨b, w'', seg ++ seg', (bind_of_ok hok).trans hok', hb, henv'.trans henv, ?_,
    fun e he ↦ ?_⟩
  · rw [htrace', htrace, List.append_assoc]
  · rcases List.mem_append.mp he with he | he
    · exact hplain e he
    · exact hplain' e he

theorem Passes.pure {α : Type} {a : α} {P : α → Prop} (ha : P a) (w : World σ) :
    Passes (Pure.pure a : Engine σ α) w P :=
  ⟨a, w, [], rfl, ha, rfl, (List.append_nil _).symm, by rintro e ⟨⟩⟩

theorem passes_ask {α : Type} {obs : Except Thrown α → Obs} {call : Call σ α} {w : World σ} {a : α}
    {P : α → Prop} (hcall : call w.env = (.ok a, w.env)) (ha : P a)
    (hpass : (obs (.ok a)).isPass = false)
    (hoffer : ∀ c answer, obs (.ok a) ≠ .preToolUse c answer) : Passes (ask obs call) w P := by
  refine ⟨a, w.record (obs (.ok a)), [⟨w.env, w.turn.machine.state, obs (.ok a)⟩], ?_, ha, rfl,
    rfl, fun e he ↦ ?_⟩
  · rw [ask, hcall]
    rfl
  · obtain rfl := List.mem_singleton.mp he
    refine ⟨hpass, ?_⟩
    rintro c ⟨answer, h⟩
    exact hoffer c answer h

theorem passes_persist (payload : EventPayload) (w : World σ) :
    Passes (persist (openDeps hooks) base payload) w fun _ ↦ True :=
  passes_ask (a := ()) rfl trivial rfl (by rintro c answer ⟨⟩)

theorem passes_takeUp {w : World σ} (hbudget : w.turn.budget = .start 0)
    (haborted : w.aborted = false) :
    Passes (takeUp (openDeps hooks) (openCall toolName arguments)) w (· = none) := by
  obtain ⟨env, drawn, aborted, ⟨machine, budget, conversation, rounds, finalText, terminalReason,
    pendingApproval⟩, trace⟩ := w
  obtain rfl : budget = .start 0 := hbudget
  obtain rfl : aborted = false := haborted
  refine ⟨_, _, [_], rfl, rfl, rfl, rfl, fun e he ↦ ?_⟩
  rw [List.mem_singleton.mp he]
  exact ⟨rfl, by rintro _ ⟨_, ⟨⟩⟩⟩

theorem passes_judge (w : World σ) :
    Passes (judge (openDeps hooks) base (openCall toolName arguments)) w (· = .admitted) := by
  refine Passes.bind (passes_ask (P := fun v ↦ v.status = .allow) rfl rfl rfl
    (by rintro c answer ⟨⟩)) fun verdict hallow w₁ _ ↦ ?_
  refine Passes.bind (passes_persist hooks base _ w₁) fun _ _ w₂ _ ↦ ?_
  rw [hallow]
  exact Passes.pure (P := (· = Admission.admitted)) rfl w₂

theorem passes_beginSideEffect (w : World σ) :
    Passes (beginSideEffect (openDeps hooks) base (openCall toolName arguments)) w
      (·.isSome) := by
  refine Passes.bind (passes_ask (P := fun _ ↦ True) rfl trivial rfl (by rintro c answer ⟨⟩))
    fun intent _ w₁ _ ↦ ?_
  refine Passes.bind (P := fun _ ↦ True) ⟨_, _, [], rfl, trivial, rfl, (List.append_nil _).symm,
    by rintro e ⟨⟩⟩ fun sideEffectId _ w₂ _ ↦ ?_
  refine Passes.bind (passes_persist hooks base _ w₂) fun _ _ w₃ _ ↦ ?_
  refine Passes.bind (P := fun may ↦ may.allowed = true) ⟨_, _, [_], rfl, rfl, rfl, rfl,
    fun e he ↦ ?_⟩ fun may hmay w₄ _ ↦ ?_
  · rw [List.mem_singleton.mp he]
    exact ⟨rfl, by rintro _ ⟨_, ⟨⟩⟩⟩
  · rw [if_pos hmay]
    exact Passes.bind (passes_persist hooks base _ w₄) fun _ _ w₅ _ ↦
      Passes.pure (P := fun started : Option String ↦ started.isSome = true) rfl w₅

/-! ### The call is executed -/

variable {runtime : HookRuntime σ}

/-- Every offer of the pass was restricted, and there was one. -/
def OnlyRestricted (runtime : HookRuntime σ) (call : NormalizedToolCall) (w : World σ) : Prop :=
  (∃ e ∈ currentEntries w.trace, Offers call e) ∧
    ∀ e ∈ currentEntries w.trace, Offers call e → Restricted runtime call e.env

theorem currentEntries_append {trace seg : List (Entry σ)} (h : ∀ e ∈ seg, Plain e) :
    currentEntries (trace ++ seg) = currentEntries trace ++ seg := by
  induction seg using List.reverseRecOn with
  | nil => rw [List.append_nil, List.append_nil]
  | append_singleton seg e ih =>
    have hnot : (!e.obs.isPass) = true := by
      rw [(h e (List.mem_append_right _ (List.mem_singleton_self e))).1]
      rfl
    have hseg := ih fun e' he' ↦ h e' (List.mem_append_left _ he')
    rw [← List.append_assoc, currentEntries,
      List.rtakeWhile_concat_pos (fun e : Entry σ ↦ !e.obs.isPass) _ _ hnot,
      ← List.append_assoc, ← hseg]
    rfl

theorem OnlyRestricted.passes {call : NormalizedToolCall} {w w' : World σ} {seg : List (Entry σ)}
    (h : OnlyRestricted runtime call w) (htrace : w'.trace = w.trace ++ seg)
    (hplain : ∀ e ∈ seg, Plain e) : OnlyRestricted runtime call w' := by
  obtain ⟨⟨e, he, hoffer⟩, hall⟩ := h
  rw [OnlyRestricted, htrace, currentEntries_append hplain]
  refine ⟨⟨e, List.mem_append_left _ he, hoffer⟩, fun e' he' hoffer' ↦ ?_⟩
  rcases List.mem_append.mp he' with he' | he'
  · exact hall e' he' hoffer'
  · exact absurd hoffer' ((hplain e' he').2 call)

/-- Offered for the first time in the pass, and restricted. -/
theorem onlyRestricted_record {call : NormalizedToolCall} {w : World σ}
    {answer : Except Thrown HookGate} (hnone : ∀ e ∈ currentEntries w.trace, ¬ Offers call e)
    (h : Restricted runtime call w.env) :
    OnlyRestricted runtime call (w.record (.preToolUse call answer)) := by
  have hentries : currentEntries (w.record (.preToolUse call answer)).trace =
      currentEntries w.trace ++ [⟨w.env, w.turn.machine.state, .preToolUse call answer⟩] :=
    List.rtakeWhile_concat_pos (fun e : Entry σ ↦ !e.obs.isPass) _ _ rfl
  rw [OnlyRestricted, hentries]
  refine ⟨⟨_, List.mem_append_right _ (List.mem_singleton_self _), answer, rfl⟩,
    fun e he hoffer ↦ ?_⟩
  rcases List.mem_append.mp he with he | he
  · exact absurd hoffer (hnone e he)
  · obtain rfl := List.mem_singleton.mp he
    exact h

theorem breaks_execute {deps : TurnEngineDeps σ} {call : NormalizedToolCall} {w : World σ}
    (h : OnlyRestricted runtime call w) (sideEffectId : String) :
    ¬ RestrictionKept runtime (after (execute deps sideEffectId call w)).trace := by
  obtain ⟨hsome, hall⟩ := h
  have htrace : (after (execute deps sideEffectId call w)).trace =
      w.trace ++ [⟨w.env, w.turn.machine.state,
        .execute sideEffectId call (deps.tools.execute call w.env).1⟩] := by
    rw [execute, ask]
    cases hcall : deps.tools.execute call w.env with
    | mk answer env => cases answer <;> rfl
  intro hkept
  rw [htrace] at hkept
  have hlast := hkept w.trace.length sideEffectId call _
    (by rw [List.map_append, List.getElem?_append_right (List.length_map _).le,
      List.length_map, Nat.sub_self]; rfl)
  rw [List.take_left] at hlast
  obtain ⟨e, he, hoffer, hnot⟩ := hlast hsome
  exact hnot (hall e he hoffer)

/-- The call is put to the hooks, nobody blocks, and it is executed. -/
theorem breaks_runOneCall {hooks : TurnHooks σ} {w : World σ} (hbudget : w.turn.budget = .start 0)
    (haborted : w.aborted = false)
    (hpre : hooks.preToolUse toolName arguments w.env = (.ok gate, s'))
    (hgate : gate.blocked = false)
    (hrestricted : Restricted runtime (openCall toolName arguments) w.env) :
    ¬ RestrictionKept runtime
      (after (runOneCall (openDeps hooks) base (openCall toolName arguments) w)).trace := by
  refine breaks_after (a := ()) rfl ?_
  -- The call is taken up.
  obtain ⟨taken, w₁, seg₁, hok₁, rfl, henv₁, htrace₁, hplain₁⟩ :=
    passes_takeUp hooks
      (w := w.record (.takeUp (openCall toolName arguments))) hbudget haborted
  refine breaks_after hok₁ ?_
  -- The hooks are asked and let it through.
  have henv : w₁.env = w.env := henv₁
  have hpre₁ := preToolUse_open hooks base (w := w₁) (henv ▸ hpre) hgate
  obtain ⟨admission, w₂, seg₂, hok₂, rfl, -, htrace₂, hplain₂⟩ :=
    passes_judge hooks base
      ({ w₁.record (.preToolUse (openCall toolName arguments) (.ok gate)) with env := s' }.record
        (.append (gateRecord base toolName) (.ok ())))
  have hgates : passGates (openDeps hooks) base (openCall toolName arguments) w₁ =
      .ok .admitted w₂ := (bind_of_ok hpre₁).trans hok₂
  refine breaks_after hgates ?_
  -- It is begun, and executed.
  obtain ⟨started, w₃, seg₃, hok₃, hstarted, -, htrace₃, hplain₃⟩ :=
    passes_beginSideEffect hooks base w₂
  obtain ⟨sideEffectId, rfl⟩ := Option.isSome_iff_exists.mp hstarted
  refine breaks_after hok₃ ?_
  refine breaks_bind (fun result ↦ ?_) (breaks_execute ?_ sideEffectId)
  · refine .bind (within_grows (footprint_settle (List.mem_singleton_self _))) fun _ ↦ ?_
    refine .bind (within_grows footprint_recordResult) fun _ ↦ ?_
    exact within_grows (footprint_afterResults (List.mem_singleton_self _))
  -- Nothing but the restricted offer is in the pass.
  have hfirst : currentEntries w₁.trace = seg₁ := by
    rw [htrace₁, currentEntries_append hplain₁, currentEntries, World.trace_record,
      List.rtakeWhile_concat_neg (fun e : Entry σ ↦ !e.obs.isPass) _ _ (by rintro ⟨⟩), List.nil_append]
  have hoffered : OnlyRestricted runtime (openCall toolName arguments)
      (w₁.record (.preToolUse (openCall toolName arguments) (.ok gate))) :=
    onlyRestricted_record (fun e he ↦ (hplain₁ e (hfirst ▸ he)).2 _) (henv ▸ hrestricted)
  have hgated : OnlyRestricted runtime (openCall toolName arguments)
      ({ w₁.record (.preToolUse (openCall toolName arguments) (.ok gate)) with env := s' }.record
        (.append (gateRecord base toolName) (.ok ()))) :=
    hoffered.passes rfl fun e he ↦ by
      rw [List.mem_singleton.mp he]
      exact ⟨rfl, by rintro _ ⟨_, ⟨⟩⟩⟩
  exact (hgated.passes htrace₂ hplain₂).passes htrace₃ hplain₃

theorem breaks_runGroups {hooks : TurnHooks σ} {w : World σ} (hbudget : w.turn.budget = .start 0)
    (haborted : w.aborted = false)
    (hpre : hooks.preToolUse toolName arguments w.env = (.ok gate, s'))
    (hgate : gate.blocked = false)
    (hrestricted : Restricted runtime (openCall toolName arguments) w.env) :
    ¬ RestrictionKept runtime (after (runToolCalls (openDeps hooks) base
      [openCall toolName arguments] w)).trace := by
  refine breaks_after (a := [["call_1"]]) rfl ?_
  refine breaks_bind (fun phase ↦ ?_)
    (breaks_runOneCall base hbudget haborted hpre hgate hrestricted)
  cases phase with
  | go => exact .pure _
  | _ => exact .pure _

theorem breaks_driveLoop {hooks : TurnHooks σ} (fuel : ℕ)
    (hpre : hooks.preToolUse toolName arguments s = (.ok gate, s'))
    (hgate : gate.blocked = false)
    (hrestricted : Restricted runtime (openCall toolName arguments) s) :
    ¬ RestrictionKept runtime (after (driveLoop (openDeps hooks) base ctx (fuel + 1)
      [openCall toolName arguments]
      { initial s 0 with turn := newTurn .awaitingApproval 0 [] })).trace := by
  rw [driveLoop]
  refine breaks_after (a := false) rfl ?_
  rw [if_neg (by decide)]
  refine breaks_bind (fun goes ↦ ?_) ?_
  · split
    · refine .bind (within_grows footprint_modelPhase) fun next ↦ ?_
      cases next with
      | some calls => exact within_driveLoop _ base ctx fuel calls
      | none => exact .pure ()
    · exact .pure ()
  rw [toolPhase, if_neg (by rintro ⟨⟩)]
  refine breaks_after (a := ()) rfl ?_
  refine breaks_after (a := ()) rfl ?_
  refine breaks_bind (fun phase ↦ ?_) (breaks_runGroups base rfl rfl hpre hgate hrestricted)
  refine .bind (within_grows (footprint_fireLifecycle (List.mem_singleton_self _))) fun _ ↦ ?_
  exact within_grows footprint_concludePhase

theorem breaks_enter {hooks : TurnHooks σ}
    (hpre : hooks.preToolUse toolName arguments s = (.ok gate, s'))
    (hgate : gate.blocked = false)
    (hrestricted : Restricted runtime (openCall toolName arguments) s) :
    ¬ RestrictionKept runtime (after (enter (openDeps hooks)
      (plainResume [openCall toolName arguments]) (initial s 0))).trace := by
  refine breaks_after (a := 0) rfl ?_
  refine breaks_after (a := ()) rfl ?_
  refine breaks_bind (fun _ ↦ within_grows
    (footprint_get _ : Footprint (openDeps hooks) [] _)) ?_
  exact breaks_tryCatch (fun e ↦ within_grows footprint_driveCatch)
    (breaks_driveLoop _ _ _ hpre hgate hrestricted)

end Open

/-- A handler that ran was registered. -/
theorem rows_ne_nil {runtime : HookRuntime σ} {toolName : String} {arguments : Arguments}
    {type : HookOutcomeType} (h : (folded runtime toolName arguments s).Gave type) :
    runtime.registry.rows ≠ [] := by
  intro hnil
  obtain ⟨record, hrecord, -⟩ := h
  rw [folded, runEngine, HookRegistry.matching, hnil] at hrecord
  cases hrecord

/-- **What denies without a block is executed**, where nothing else stands in the way. -/
theorem not_restrictionKept {runtime : HookRuntime σ} {toolName : String} {arguments : Arguments}
    {s : σ} {gate : HookGate} (hok : (runtime.preToolUse toolName arguments s).1 = .ok gate)
    (hdeny : (folded runtime toolName arguments s).Gave .deny)
    (hblock : ¬ (folded runtime toolName arguments s).Gave .block) :
    ¬ RestrictionKept runtime (after (enter
      { openDeps runtime.gates with hooks := runtime.turnHooks }
      (plainResume [openCall toolName arguments]) (initial s 0))).trace := by
  have hhooks : runtime.turnHooks = some runtime.gates := if_neg (rows_ne_nil hdeny)
  rw [hhooks]
  have hpre : runtime.preToolUse toolName arguments s =
      (.ok gate, (runtime.preToolUse toolName arguments s).2) := by rw [← hok]
  refine breaks_enter hpre ?_ (.inr hdeny)
  rw [blocked_of_preToolUse hpre]
  exact Bool.eq_false_iff.mpr ((blocked_iff runtime toolName arguments s).not.mpr hblock)

/-- **A restriction is kept** in every turn exactly where no handler denies unless one blocks. -/
theorem restrictionKept_iff_deniesOnlyWithBlock (runtime : HookRuntime σ) :
    (∀ (deps : TurnEngineDeps σ) (input : TurnInput) (env : σ) (drawn : ℕ),
      RestrictionKept runtime
        (after (enter { deps with hooks := runtime.turnHooks } input (initial env drawn))).trace) ↔
      DeniesOnlyWithBlock runtime := by
  refine ⟨fun hkept toolName arguments s gate hok hdeny ↦ ?_,
    restrictionKept_of_deniesOnlyWithBlock⟩
  by_contra hblock
  exact not_restrictionKept hok hdeny hblock (hkept _ _ s 0)

/-- One hook, which denies every tool. -/
def denyingRuntime : HookRuntime Unit where
  registry := ⟨[⟨"hook_1", .preToolUse, .command, none, none⟩], List.pairwise_singleton _ _⟩
  invoke _ _ s := (.outcome (.deny ⟨"denied", "not allowed"⟩) none, s)
  now s := (0, s)
  correlationId := "cor_000001"
  onFired := none

/-- The denied call is executed. -/
theorem not_restrictionKept_denying :
    ¬ RestrictionKept denyingRuntime (after (enter
      { openDeps denyingRuntime.gates with hooks := denyingRuntime.turnHooks }
      (plainResume [openCall "write_file" []]) (initial () 0))).trace := by
  refine not_restrictionKept rfl
    ⟨_, List.mem_singleton_self _, rfl⟩ ?_
  rintro ⟨record, hrecord, houtcome⟩
  obtain rfl := List.mem_singleton.mp hrecord
  cases houtcome

end QwenHarness.Cli
