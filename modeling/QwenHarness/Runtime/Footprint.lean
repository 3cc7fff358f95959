import QwenHarness.Runtime.TurnEngine

/-!
# What each step of the engine records

Every record has a kind, and each function of the engine is given the kinds it can leave in the
trace. A function that never leaves the kind `moved` leaves the machine alone. These footprints are
what later arguments use for every function that does not matter to them: what holds of a trace and
is not disturbed by those kinds still holds afterwards.
-/

namespace QwenHarness

open Effect

/-! ## Kinds of records -/

inductive Kind where
  | signal
  | hookGate
  | evaluation
  | approval
  | lifecycle
  | intentFor
  | guard
  | execution
  | postHook
  | plan
  | preparation
  | stream
  | sleep
  | takeUp
  | takeUpBatch
  | budgetStop
  | moved
  | said
  | adopted
  -- Persisted events.
  | turnStarted
  | stateChanged
  | turnEnded
  | cancelled
  | hookFired
  | policyDecision
  | approvalRequested
  | approvalResolved
  | intent
  | started
  | settled
  | callItem
  | resultItem
  | otherItem
  | requestStarted
  | request
  | other
  /-- Not a record: the budget counted a call of the model. -/
  | modelCall
  /-- Not a record: the budget counted a call of a tool. -/
  | toolCall
deriving DecidableEq, Repr

def ItemBody.kind : ItemBody → Kind
  | .toolCall _ => .callItem
  | .toolResult _ => .resultItem
  | _ => .otherItem

def EventPayload.kind : EventPayload → Kind
  | .turnStarted _ => .turnStarted
  | .turnStateChanged _ _ => .stateChanged
  | .turnEnded _ _ => .turnEnded
  | .itemAppended item => item.body.kind
  | .modelRequestStarted _ _ _ => .requestStarted
  | .modelRequestCompleted _ _ => .request
  | .modelRequestFailed _ _ _ _ => .request
  | .sideEffectIntent _ => .intent
  | .sideEffectStarted _ => .started
  | .sideEffectSettled _ _ _ => .settled
  | .policyDecision _ _ _ _ _ => .policyDecision
  | .approvalRequested _ _ _ => .approvalRequested
  | .approvalResolved _ _ _ => .approvalResolved
  | .hookFired _ _ _ _ => .hookFired
  | .cancelled _ => .cancelled
  | _ => .other

def Obs.kind : Obs → Kind
  | .signal _ => .signal
  | .append input _ => input.payload.kind
  | .preToolUse _ _ => .hookGate
  | .evaluate _ _ => .evaluation
  | .requestApproval _ _ => .approval
  | .lifecycle _ _ => .lifecycle
  | .intentFor _ _ => .intentFor
  | .mayExecute _ _ => .guard
  | .execute _ _ _ => .execution
  | .postToolUse _ _ => .postHook
  | .planBatches _ _ => .plan
  | .prepare _ _ => .preparation
  | .stream _ _ => .stream
  | .sleep _ _ => .sleep
  | .takeUp _ => .takeUp
  | .takeUpBatch _ => .takeUpBatch
  | .budgetStop _ => .budgetStop
  | .moved _ => .moved
  | .said _ => .said
  | .adopted _ => .adopted

/-! ## Records and the outside -/

section Linked

variable {σ α : Type}

/-- What the outside did when something was recorded: it answered so and moved from the one state
to the other. -/
def Answers (deps : TurnEngineDeps σ) (s : σ) : Obs → σ → Prop
  | .signal aborted, s' => (aborted, s') = deps.aborted s ∨ (aborted = true ∧ s' = s)
  | .append input answer, s' => (answer, s') = deps.sink.append input s
  | .preToolUse call answer, s' => ∃ hooks, deps.hooks = some hooks ∧
      (answer, s') = hooks.preToolUse call.toolName call.arguments s
  | .evaluate call answer, s' =>
    (answer, s') = deps.tools.evaluate call.callId call.toolName call.arguments s
  | .requestApproval request answer, s' => ∃ gate, deps.approvals = some gate ∧
      (answer, s') = gate request s
  | .lifecycle event answer, s' => ∃ fire, deps.hooks.bind TurnHooks.fireLifecycle = some fire ∧
      (answer, s') = fire event s
  | .intentFor call answer, s' =>
    (answer, s') = deps.tools.intentFor call.toolName call.arguments s
  | .mayExecute key answer, s' => answer = deps.sink.mayExecute key s ∧ s' = s
  | .execute _ call answer, s' => (answer, s') = deps.tools.execute call s
  | .postToolUse call answer, s' => ∃ hooks ok, deps.hooks = some hooks ∧
      (answer, s') = hooks.postToolUse call.toolName ok s
  | .planBatches calls answer, s' => ∃ plan, deps.tools.planBatches = some plan ∧
      (answer, s') = plan calls s
  | .prepare conversation answer, s' => ∃ prepare, deps.context = some prepare ∧
      (answer, s') = prepare conversation s
  | .stream request answer, s' => (answer, s') = deps.stream request s
  | .sleep ms answer, s' => (answer, s') = deps.sleep ms s
  | .takeUp _, s' | .takeUpBatch _, s' | .budgetStop _, s' | .moved _, s' | .said _, s'
  | .adopted _, s' => s' = s

/-- What the outside may do unrecorded: read the clock, roll the dice, drain the queue. -/
def Reads (deps : TurnEngineDeps σ) (s s' : σ) : Prop :=
  s' = (deps.now s).2 ∨ s' = (deps.rng s).2 ∨
    ∃ drain, deps.notifications = some drain ∧ s' = (drain s).2

/-- The records tell the story of the outside from the one state to the other. -/
inductive Linked (deps : TurnEngineDeps σ) : σ → List (Entry σ) → σ → Prop
  | nil (s : σ) : Linked deps s [] s
  | read {s s' t : σ} {seg : List (Entry σ)} (h : Reads deps s s') (rest : Linked deps s' seg t) :
      Linked deps s seg t
  | entry {s s' t : σ} {seg : List (Entry σ)} (state : TurnState) (o : Obs)
      (h : Answers deps s o s') (rest : Linked deps s' seg t) :
      Linked deps s (⟨s, state, o⟩ :: seg) t

variable {deps : TurnEngineDeps σ} {s t u : σ} {seg seg' : List (Entry σ)}

theorem Linked.append (h : Linked deps s seg t) (h' : Linked deps t seg' u) :
    Linked deps s (seg ++ seg') u := by
  induction h with
  | nil s => exact h'
  | read hr rest ih => exact .read hr (ih h')
  | entry state o ha rest ih => exact .entry state o ha (ih h')

theorem Linked.single {state : TurnState} {o : Obs} (h : Answers deps s o t) :
    Linked deps s [⟨s, state, o⟩] t :=
  .entry state o h (.nil t)

/-- Every record tells what the outside did. -/
theorem Linked.answers (h : Linked deps s seg t) {e : Entry σ} (he : e ∈ seg) :
    ∃ s', Answers deps e.env e.obs s' := by
  induction h with
  | nil s => exact absurd he List.not_mem_nil
  | read _ _ ih => exact ih he
  | @entry _ s' _ _ state o ha _ ih =>
    rcases List.mem_cons.mp he with rfl | he
    · exact ⟨s', ha⟩
    · exact ih he

end Linked

/-! ## Adding a record -/

section Adds

variable {σ α : Type}

/-- What was recorded, without the states it was recorded in. -/
def World.obs (w : World σ) : List Obs := w.trace.map Entry.obs

@[simp] theorem World.obs_record (w : World σ) (obs : Obs) : (w.record obs).obs = w.obs ++ [obs] := by
  rw [World.obs, World.trace_record, List.map_append, List.map_singleton, World.obs]

/-- One record was added, and the outside did what it says. -/
structure Adds (deps : TurnEngineDeps σ) (o : Obs) (w w' : World σ) : Prop where
  trace : w'.trace = w.trace ++ [⟨w.env, w.turn.machine.state, o⟩]
  answers : Answers deps w.env o w'.env
  drawn : w'.drawn = w.drawn
  machine : w'.turn.machine = w.turn.machine
  budget : w'.turn.budget = w.turn.budget
  conversation : o.kind ≠ .said → o.kind ≠ .adopted →
    w'.turn.conversation = w.turn.conversation

variable {deps : TurnEngineDeps σ} {o : Obs} {w w' : World σ}

theorem Adds.obs (h : Adds deps o w w') : w'.obs = w.obs ++ [o] := by
  rw [World.obs, h.trace, List.map_append, List.map_singleton, World.obs]

/-- A mark is recorded and nothing happens. -/
theorem adds_record (h : Answers deps w.env o w.env) : Adds deps o w (w.record o) :=
  ⟨rfl, h, rfl, rfl, rfl, fun _ _ ↦ rfl⟩

variable {p : World σ → Prop} {r : Thrown → World σ → Prop}

/-- **The rule of a call.** -/
theorem ask_rule {obs : Except Thrown α → Obs} {call : Call σ α} {q : α → World σ → Prop}
    (hcall : ∀ s, Answers deps s (obs (call s).1) (call s).2)
    (hok : ∀ {w w'} a, p w → Adds deps (obs (.ok a)) w w' → q a w')
    (herror : ∀ {w w'} e, p w → Adds deps (obs (.error e)) w w' → r e w') :
    Triple p (ask obs call) q r := by
  intro w hw
  have hans := hcall w.env
  rw [ask]
  generalize call w.env = x at hans
  rcases x with ⟨e | a, env⟩
  · exact herror e hw ⟨rfl, hans, rfl, rfl, rfl, fun _ _ ↦ rfl⟩
  · exact hok a hw ⟨rfl, hans, rfl, rfl, rfl, fun _ _ ↦ rfl⟩

/-- **The rule of the signal.** -/
theorem signal_rule {q : Bool → World σ → Prop}
    (h : ∀ {w w'} aborted, p w → Adds deps (.signal aborted) w w' → q aborted w') :
    Triple p (signalAborted deps) q r := by
  intro w hw
  rw [signalAborted]
  by_cases ha : w.aborted = true
  · rw [if_pos ha]
    exact h true hw (adds_record (.inr ⟨rfl, rfl⟩))
  · rw [if_neg ha]
    exact h _ hw ⟨rfl, .inl rfl, rfl, rfl, rfl, fun _ _ ↦ rfl⟩

theorem note_rule {q : World σ → Prop} (hmark : ∀ s, Answers deps s o s)
    (h : ∀ {w w'}, p w → Adds deps o w w' → q w') : Triple p (note o) (fun _ ↦ q) r :=
  fun _ hw ↦ h hw (adds_record (hmark _))

theorem say_rule {items : List ModelInputItem} {q : World σ → Prop}
    (h : ∀ {w w'}, p w → Adds deps (.said items) w w' → q w') : Triple p (say items) (fun _ ↦ q) r :=
  fun _ hw ↦ h hw ⟨rfl, rfl, rfl, rfl, rfl, fun hs _ ↦ absurd rfl hs⟩

theorem adopt_rule {items : List ModelInputItem} {q : World σ → Prop}
    (h : ∀ {w w'}, p w → Adds deps (.adopted items) w w' → q w') :
    Triple p (adopt items) (fun _ ↦ q) r :=
  fun _ hw ↦ h hw ⟨rfl, rfl, rfl, rfl, rfl, fun _ ha ↦ absurd rfl ha⟩

/-- The rule of a call where only the records matter. -/
theorem triple_ask {obs : Except Thrown α → Obs} {call : Call σ α} {p : List Obs → Prop}
    {q : α → List Obs → Prop} {r : Thrown → List Obs → Prop}
    (hcall : ∀ s, Answers deps s (obs (call s).1) (call s).2)
    (hok : ∀ a t, p t → q a (t ++ [obs (.ok a)]))
    (herror : ∀ e t, p t → r e (t ++ [obs (.error e)])) :
    Triple (fun w ↦ p w.obs) (ask obs call) (fun a w ↦ q a w.obs) fun e w ↦ r e w.obs :=
  ask_rule hcall (fun a hp h ↦ h.obs ▸ hok a _ hp) fun e hp h ↦ h.obs ▸ herror e _ hp

end Adds

/-! ## Footprints -/

section Footprint

variable {σ α β : Type}

/-- The trace grew by records of these kinds, which tell what the outside did, and identifiers were
only drawn. The machine moved, the conversation changed and calls were counted only if that is one
of the kinds. -/
structure Leaves (deps : TurnEngineDeps σ) (ks : List Kind) (w w' : World σ) : Prop where
  records : ∃ seg, w'.trace = w.trace ++ seg ∧ (∀ e ∈ seg, e.obs.kind ∈ ks) ∧
    (Kind.moved ∉ ks → ∀ e ∈ seg, e.state = w.turn.machine.state) ∧
    Linked deps w.env seg w'.env
  drawn : w.drawn ≤ w'.drawn
  machine : Kind.moved ∉ ks → w'.turn.machine = w.turn.machine
  modelCalls : Kind.modelCall ∉ ks → w'.turn.budget.modelCalls = w.turn.budget.modelCalls
  toolCalls : Kind.toolCall ∉ ks → w'.turn.budget.toolCalls = w.turn.budget.toolCalls
  conversation : Kind.said ∉ ks → Kind.adopted ∉ ks →
    w'.turn.conversation = w.turn.conversation

variable {deps : TurnEngineDeps σ}

def leaves (deps : TurnEngineDeps σ) (ks : List Kind) : Frame (World σ) where
  rel := Leaves deps ks
  refl w := ⟨⟨[], by simp, by simp, by simp, .nil _⟩, le_rfl, fun _ ↦ rfl, fun _ ↦ rfl, fun _ ↦ rfl,
    fun _ _ ↦ rfl⟩
  trans := by
    rintro a b c ⟨⟨s, hs, hks, hst, hl⟩, hd, hm, hc, ht, hv⟩
      ⟨⟨s', hs', hks', hst', hl'⟩, hd', hm', hc', ht', hv'⟩
    refine ⟨⟨s ++ s', by rw [hs', hs, List.append_assoc], fun e he ↦ ?_, fun h e he ↦ ?_,
      hl.append hl'⟩, hd.trans hd', fun h ↦ (hm' h).trans (hm h), fun h ↦ (hc' h).trans (hc h),
      fun h ↦ (ht' h).trans (ht h), fun h h' ↦ (hv' h h').trans (hv h h')⟩
    · exact (List.mem_append.mp he).elim (hks e) (hks' e)
    · rcases List.mem_append.mp he with he | he
      · exact hst h e he
      · rw [hst' h e he, hm h]

/-- The program leaves only records of these kinds. -/
abbrev Footprint (deps : TurnEngineDeps σ) (ks : List Kind) (m : Engine σ α) : Prop :=
  Within (leaves deps ks) m

variable {ks ks' : List Kind} {w w' : World σ}

theorem Leaves.mono (h : Leaves deps ks w w') (hks : ks ⊆ ks') : Leaves deps ks' w w' := by
  obtain ⟨⟨seg, htrace, hkinds, hstates, hlinked⟩, hd, hm, hc, ht, hv⟩ := h
  exact ⟨⟨seg, htrace, fun e he ↦ hks (hkinds e he), fun hmv ↦ hstates fun hk ↦ hmv (hks hk),
    hlinked⟩, hd, fun hmv ↦ hm fun hk ↦ hmv (hks hk), fun hst ↦ hc fun hk ↦ hst (hks hk),
    fun hst ↦ ht fun hk ↦ hst (hks hk),
    fun hsaid hadopted ↦ hv (fun hk ↦ hsaid (hks hk)) fun hk ↦ hadopted (hks hk)⟩

theorem Footprint.mono {m : Engine σ α} (h : Footprint deps ks m) (hks : ks ⊆ ks') :
    Footprint deps ks' m :=
  Within.mono h fun hl ↦ hl.mono hks

theorem Leaves.trace (h : Leaves deps ks w w') :
    ∃ seg, w'.trace = w.trace ++ seg ∧ ∀ e ∈ seg, e.obs.kind ∈ ks :=
  h.records.imp fun _ hs ↦ ⟨hs.1, hs.2.1⟩

theorem Leaves.obs (h : Leaves deps ks w w') :
    ∃ seg, w'.obs = w.obs ++ seg ∧ ∀ o ∈ seg, o.kind ∈ ks := by
  obtain ⟨seg, htrace, hkinds⟩ := h.trace
  refine ⟨seg.map Entry.obs, by rw [World.obs, htrace, List.map_append, World.obs], fun o ho ↦ ?_⟩
  obtain ⟨e, he, rfl⟩ := List.mem_map.mp ho
  exact hkinds e he

theorem Adds.leaves {o : Obs} (h : Adds deps o w w') (hk : o.kind ∈ ks) : Leaves deps ks w w' := by
  refine ⟨⟨[_], h.trace, fun e he ↦ ?_, fun _ e he ↦ ?_, .single h.answers⟩, h.drawn.ge,
    fun _ ↦ h.machine, fun _ ↦ by rw [h.budget], fun _ ↦ by rw [h.budget],
    fun hsaid hadopted ↦ h.conversation (fun heq ↦ hsaid (heq ▸ hk)) fun heq ↦ hadopted (heq ▸ hk)⟩
  · rwa [List.mem_singleton.mp he]
  · rw [List.mem_singleton.mp he]

/-- Nothing was recorded. -/
theorem leaves_of_trace_eq (ht : w'.trace = w.trace) (hl : Linked deps w.env [] w'.env)
    (hd : w.drawn ≤ w'.drawn) (hm : w'.turn.machine = w.turn.machine)
    (hb : w'.turn.budget = w.turn.budget) (hv : w'.turn.conversation = w.turn.conversation) :
    Leaves deps ks w w' :=
  ⟨⟨[], by rw [ht, List.append_nil], by simp, by simp, hl⟩, hd, fun _ ↦ hm,
    fun _ ↦ congrArg _ hb, fun _ ↦ congrArg _ hb, fun _ _ ↦ hv⟩

/-! ### Steps -/

/-- A triple that ends within the frame wherever it starts. -/
theorem footprint_of_triple {m : Engine σ α}
    (h : ∀ w, Triple (· = w) m (fun _ ↦ Leaves deps ks w) fun _ ↦ Leaves deps ks w) :
    Footprint deps ks m := by
  intro w
  have hw := h w w rfl
  cases hr : m w with
  | ok a w' => rw [hr] at hw; exact hw
  | error e w' => rw [hr] at hw; exact hw

theorem footprint_ask {obs : Except Thrown α → Obs} {call : Call σ α}
    (hcall : ∀ s, Answers deps s (obs (call s).1) (call s).2)
    (h : ∀ answer, (obs answer).kind ∈ ks) : Footprint deps ks (ask obs call) :=
  footprint_of_triple fun _ ↦ ask_rule hcall (fun _ hw ha ↦ hw ▸ ha.leaves (h _))
    fun _ hw ha ↦ hw ▸ ha.leaves (h _)

theorem footprint_note {o : Obs} (hmark : ∀ s, Answers deps s o s) (h : o.kind ∈ ks) :
    Footprint deps ks (note o) :=
  fun _ ↦ (adds_record (hmark _)).leaves h

theorem footprint_read {call : σ → α × σ} (hcall : ∀ s, Reads deps s (call s).2) :
    Footprint deps ks (read call) :=
  fun _ ↦ leaves_of_trace_eq rfl (.read (hcall _) (.nil _)) le_rfl rfl rfl rfl

theorem footprint_now : Footprint deps ks (read deps.now) := footprint_read fun _ ↦ .inl rfl

theorem footprint_get (f : World σ → α) : Footprint deps ks (fun w ↦ .ok (f w) w : Engine σ α) :=
  fun w ↦ (leaves deps ks).refl w

theorem footprint_signalAborted (h : .signal ∈ ks) : Footprint deps ks (signalAborted deps) :=
  footprint_of_triple fun _ ↦ signal_rule fun _ hw ha ↦ hw ▸ ha.leaves h

theorem footprint_draw (kind : String) : Footprint deps ks (draw deps kind) :=
  fun _ ↦ leaves_of_trace_eq rfl (.nil _) (Nat.le_succ _) rfl rfl rfl

theorem footprint_modifyTurn {f : Turn → Turn} (h : ∀ t, (f t).machine = t.machine)
    (hb : ∀ t, (f t).budget = t.budget) (hv : ∀ t, (f t).conversation = t.conversation) :
    Footprint deps ks (modifyTurn f) :=
  fun w ↦ leaves_of_trace_eq rfl (.nil _) le_rfl (h w.turn) (hb w.turn) (hv w.turn)

/-- A budget that counts calls only where that is one of the kinds. -/
theorem footprint_useBudget {f : BudgetTracker → BudgetVerdict × BudgetTracker}
    (hm : Kind.modelCall ∈ ks ∨ ∀ b, (f b).2.modelCalls = b.modelCalls)
    (ht : Kind.toolCall ∈ ks ∨ ∀ b, (f b).2.toolCalls = b.toolCalls) :
    Footprint deps ks (useBudget f) :=
  fun w ↦ ⟨⟨[], by simp [useBudget], by simp, by simp, .nil _⟩, le_rfl, fun _ ↦ rfl,
    fun hs ↦ (hm.resolve_left hs) w.turn.budget, fun hs ↦ (ht.resolve_left hs) w.turn.budget,
    fun _ _ ↦ rfl⟩

theorem footprint_say {items : List ModelInputItem} (h : .said ∈ ks) :
    Footprint deps ks (say items) :=
  footprint_of_triple fun _ ↦ say_rule fun hw ha ↦ hw ▸ ha.leaves h

theorem footprint_adopt {items : List ModelInputItem} (h : .adopted ∈ ks) :
    Footprint deps ks (adopt items) :=
  footprint_of_triple fun _ ↦ adopt_rule fun hw ha ↦ hw ▸ ha.leaves h

theorem footprint_moveMachine {f : TurnMachine → Except Thrown TurnMachine} (h : .moved ∈ ks) :
    Footprint deps ks (moveMachine f) := by
  intro w
  rw [moveMachine]
  cases f w.turn.machine with
  | ok machine =>
    refine ⟨⟨[_], rfl, fun e he ↦ ?_, fun hm ↦ absurd h hm, .single rfl⟩, le_rfl,
      fun hm ↦ absurd h hm, fun _ ↦ rfl, fun _ ↦ rfl, fun _ _ ↦ rfl⟩
    rwa [List.mem_singleton.mp he]
  | error e => exact (leaves deps ks).refl w

end Footprint

namespace TurnEngine

variable {σ : Type} {deps : TurnEngineDeps σ} {base : PersistBase} {ks : List Kind}

/-! ## Persisting and ending -/

theorem footprint_persist (k : Kind) {payload : EventPayload} {itemId : Option String}
    (hk : payload.kind = k) (h : k ∈ ks) : Footprint deps ks (persist deps base payload itemId) := by
  subst hk
  exact footprint_ask (fun _ ↦ rfl) fun _ ↦ h

theorem footprint_persistItem (k : Kind) {body : ItemBody} (hk : body.kind = k) (h : k ∈ ks) :
    Footprint deps ks (persistItem deps base body) :=
  .bind (footprint_draw _) fun _ ↦ .bind footprint_now fun _ ↦ footprint_persist k hk h

theorem footprint_persistState (h : .stateChanged ∈ ks) :
    Footprint deps ks (persistState deps base) := by
  intro w
  rw [persistState]
  split
  · split
    · exact footprint_persist .stateChanged rfl h w
    · exact (leaves deps ks).refl w
  · exact (leaves deps ks).refl w

theorem footprint_transitionUnless {target : TurnState} (h : .moved ∈ ks) :
    Footprint deps ks (transitionUnless (σ := σ) target) := by
  intro w
  rw [transitionUnless]
  split
  · exact (leaves deps ks).refl w
  · exact footprint_moveMachine h w

theorem footprint_fireLifecycle {event : LifecycleEvent} (h : .lifecycle ∈ ks) :
    Footprint deps ks (fireLifecycle deps event) := by
  rw [fireLifecycle]
  cases hfire : deps.hooks.bind TurnHooks.fireLifecycle with
  | some fire => exact footprint_ask (fun _ ↦ ⟨fire, hfire, rfl⟩) fun _ ↦ h
  | none => exact .pure ()

theorem footprint_fireQuietly {event : LifecycleEvent} (h : .lifecycle ∈ ks) :
    Footprint deps ks (fireQuietly deps event) :=
  .tryCatch (footprint_fireLifecycle h) fun _ ↦ .pure ()

theorem footprint_fireStop {state : TurnState} {reason : TerminationReason}
    (h : .lifecycle ∈ ks) : Footprint deps ks (fireStop deps state reason) :=
  .bind (.when fun _ ↦ footprint_fireQuietly h) fun _ ↦ footprint_fireQuietly h

/-- What ending a turn records. -/
def endKinds : List Kind := [.moved, .turnEnded, .cancelled, .lifecycle]

theorem footprint_cancel : Footprint deps endKinds (cancel deps base) := by
  rw [cancel]
  refine .bind (footprint_get _) fun terminal ↦ ?_
  split
  · exact .pure ()
  · refine .bind (footprint_moveMachine (by decide)) fun _ ↦ ?_
    refine .bind (footprint_persist .cancelled rfl (by decide)) fun _ ↦ ?_
    refine .bind (footprint_persist .turnEnded rfl (by decide)) fun _ ↦ ?_
    exact footprint_fireStop (by decide)

theorem footprint_endTurn {state : TurnState} {reason : TerminationReason} :
    Footprint deps endKinds (endTurn deps base state reason) := by
  rw [endTurn]
  refine .bind (footprint_get _) fun terminal ↦ ?_
  refine .bind (.when fun _ ↦ footprint_moveMachine (by decide)) fun _ ↦ ?_
  refine .bind (footprint_persist .turnEnded rfl (by decide)) fun _ ↦ ?_
  exact footprint_fireStop (by decide)

theorem footprint_setTerminalReason {reason : TerminationReason} :
    Footprint deps ks (setTerminalReason (σ := σ) reason) :=
  footprint_modifyTurn (fun _ ↦ rfl) (fun _ ↦ rfl) fun _ ↦ rfl

/-! ## One tool call -/

def takeUpKinds : List Kind := [.signal, .budgetStop, .toolCall]

theorem footprint_takeUp {call : NormalizedToolCall} : Footprint deps takeUpKinds (takeUp deps call) := by
  have hstop : ∀ reason, Footprint deps takeUpKinds (do
      note (σ := σ) (.budgetStop reason)
      pure (some (ToolPhase.budget reason))) :=
    fun reason ↦ .bind (footprint_note (fun _ ↦ rfl) (List.mem_of_elem_eq_true rfl)) fun _ ↦ .pure _
  rw [takeUp]
  refine .bind (footprint_signalAborted (by decide)) fun aborted ↦ ?_
  split
  · exact .pure _
  · refine .bind (footprint_useBudget (.inr fun b ↦ b.modelCalls_beforeToolCall)
      (.inl (by decide))) fun verdict ↦ ?_
    cases verdict with
    | some reason => exact hstop reason
    | none =>
      refine .bind (footprint_useBudget (.inr fun b ↦ b.modelCalls_observeToolCall)
        (.inl (by decide))) fun verdict ↦ ?_
      cases verdict with
      | some reason => exact hstop reason
      | none => exact .pure _

theorem footprint_sayOutput {d : TurnEngineDeps σ} {call : NormalizedToolCall} {output : String}
    (h : .said ∈ ks) :
    Footprint d ks (sayOutput (σ := σ) call output) :=
  footprint_say h

def preToolUseKinds : List Kind := [.hookGate, .hookFired, .said]

theorem footprint_preToolUse {call : NormalizedToolCall} :
    Footprint deps preToolUseKinds (preToolUse deps base call) := by
  rw [preToolUse]
  cases hhooks : deps.hooks with
  | none => exact .pure _
  | some hooks =>
    refine .bind (footprint_ask (fun _ ↦ ⟨hooks, hhooks, rfl⟩) fun _ ↦
      List.mem_of_elem_eq_true rfl) fun gate ↦ ?_
    refine .bind (footprint_persist .hookFired rfl (by decide)) fun _ ↦ ?_
    split
    · exact .bind (footprint_sayOutput (by decide)) fun _ ↦ .pure _
    · exact .pure _

theorem footprint_evaluate {call : NormalizedToolCall} (h : .evaluation ∈ ks) :
    Footprint deps ks (evaluate deps call) :=
  footprint_ask (fun _ ↦ rfl) fun _ ↦ h

theorem footprint_persistVerdict {call : NormalizedToolCall} {verdict : ToolEvaluation}
    (h : .policyDecision ∈ ks) : Footprint deps ks (persistVerdict deps base call verdict) :=
  footprint_persist .policyDecision rfl h

theorem footprint_recordToolDenial {call : NormalizedToolCall} {message category : String}
    (h : .resultItem ∈ ks) : Footprint deps ks (recordToolDenial deps base call message category) :=
  footprint_persistItem .resultItem rfl h

/-- What asking for an approval records, up to the answer. -/
def approvalKinds : List Kind :=
  [.moved, .stateChanged, .approvalRequested, .lifecycle, .approval, .signal, .approvalResolved,
    .resultItem, .said]

theorem footprint_requestApproval {request : ApprovalRequest} (h : .approval ∈ ks) :
    Footprint deps ks (requestApproval deps request) := by
  rw [requestApproval]
  cases hgate : deps.approvals with
  | some gate => exact footprint_ask (fun _ ↦ ⟨gate, hgate, rfl⟩) fun _ ↦ h
  | none => exact .pure _

theorem footprint_resolveApproval {call : NormalizedToolCall} {granted : Bool}
    {scope : Option ApprovalScope} :
    Footprint deps [.approvalResolved, .moved, .stateChanged]
      (resolveApproval deps base call granted scope) := by
  rw [resolveApproval]
  refine .bind (footprint_persist .approvalResolved rfl (by decide)) fun _ ↦ ?_
  refine .bind (footprint_moveMachine (by decide)) fun _ ↦ ?_
  exact footprint_persistState (by decide)

theorem footprint_askApproval {call : NormalizedToolCall} {verdict : ToolEvaluation} :
    Footprint deps approvalKinds (askApproval deps base call verdict) := by
  rw [askApproval]
  refine .bind (footprint_moveMachine (by decide)) fun _ ↦ ?_
  refine .bind (footprint_persistState (by decide)) fun _ ↦ ?_
  refine .bind (footprint_persist .approvalRequested rfl (by decide)) fun _ ↦ ?_
  refine .bind (footprint_fireLifecycle (by decide)) fun _ ↦ ?_
  refine .bind (footprint_requestApproval (by decide)) fun decision ↦ ?_
  refine .bind (footprint_signalAborted (by decide)) fun aborted ↦ ?_
  split
  · exact .pure _
  · cases decision with
    | deferred reason => exact .pure _
    | approved scope =>
      exact .bind (footprint_resolveApproval.mono (by decide)) fun _ ↦ .pure _
    | denied reason =>
      refine .bind (footprint_resolveApproval.mono (by decide)) fun _ ↦ ?_
      refine .bind (footprint_recordToolDenial (by decide)) fun _ ↦ ?_
      exact .bind (footprint_sayOutput (by decide)) fun _ ↦ .pure _

/-- What the steps before an intent record. -/
def admitKinds : List Kind :=
  [.hookGate, .hookFired, .said, .evaluation, .policyDecision, .moved, .stateChanged,
    .approvalRequested, .lifecycle, .approval, .signal, .approvalResolved, .resultItem]

theorem footprint_judge {call : NormalizedToolCall} :
    Footprint deps admitKinds (judge deps base call) := by
  rw [judge]
  refine .bind (footprint_evaluate (by decide)) fun verdict ↦ ?_
  refine .bind (footprint_persistVerdict (by decide)) fun _ ↦ ?_
  split
  · refine .bind (footprint_recordToolDenial (by decide)) fun _ ↦ ?_
    refine .bind (footprint_fireLifecycle (by decide)) fun _ ↦ ?_
    exact .bind (footprint_sayOutput (by decide)) fun _ ↦ .pure _
  · exact footprint_askApproval.mono (by decide)
  · exact .pure _

theorem footprint_passGates {call : NormalizedToolCall} :
    Footprint deps admitKinds (passGates deps base call) := by
  rw [passGates]
  refine .bind (footprint_preToolUse.mono (by decide)) fun blocked ↦ ?_
  split
  · exact .pure _
  · exact footprint_judge

def beginKinds : List Kind := [.intentFor, .intent, .guard, .started, .settled, .said]

/-- **The rule of the recovery guard.** It answers for the state it is asked in. -/
theorem mayExecute_rule {key : String} {p : World σ → Prop}
    {q : EventStore.MayExecute → World σ → Prop} {r : Thrown → World σ → Prop}
    (h : ∀ {w w'} may, p w → may = deps.sink.mayExecute key w.env → w'.env = w.env →
      Adds deps (.mayExecute key may) w w' → q may w') :
    Triple p (mayExecute deps key) q r := by
  intro w hw
  have hans : Answers deps w.env (.mayExecute key (deps.sink.mayExecute key w.env)) w.env :=
    ⟨rfl, rfl⟩
  exact h _ hw rfl rfl (adds_record hans)

theorem footprint_mayExecute {key : String} (h : .guard ∈ ks) :
    Footprint deps ks (mayExecute deps key) :=
  footprint_of_triple fun _ ↦ mayExecute_rule fun _ hw _ _ ha ↦ hw ▸ ha.leaves h

theorem footprint_beginSideEffect {call : NormalizedToolCall} :
    Footprint deps beginKinds (beginSideEffect deps base call) := by
  rw [beginSideEffect]
  refine .bind (footprint_ask (fun _ ↦ rfl) fun _ ↦ List.mem_of_elem_eq_true rfl) fun intent ↦ ?_
  refine .bind (footprint_draw _) fun sideEffectId ↦ ?_
  refine .bind (footprint_persist .intent rfl (by decide)) fun _ ↦ ?_
  refine .bind (footprint_mayExecute (by decide)) fun may ↦ ?_
  split
  · exact .bind (footprint_persist .started rfl (by decide)) fun _ ↦ .pure _
  · refine .bind (footprint_persist .settled rfl (by decide)) fun _ ↦ ?_
    exact .bind (footprint_sayOutput (by decide)) fun _ ↦ .pure _

theorem footprint_execute {sideEffectId : String} {call : NormalizedToolCall}
    (h : .execution ∈ ks) : Footprint deps ks (execute deps sideEffectId call) :=
  footprint_ask (fun _ ↦ rfl) fun _ ↦ h

theorem footprint_settle {sideEffectId : String} {result : ToolExecutionResult}
    (h : .settled ∈ ks) : Footprint deps ks (settle deps base sideEffectId result) :=
  footprint_persist .settled rfl h

def recordResultKinds : List Kind := [.postHook, .hookFired, .resultItem, .said]

theorem footprint_postToolUse {call : NormalizedToolCall} {result : ToolExecutionResult} :
    Footprint deps [.postHook, .hookFired] (postToolUse deps base call result) := by
  rw [postToolUse]
  cases hhooks : deps.hooks with
  | none => exact .pure _
  | some hooks =>
    refine .bind (footprint_ask (fun _ ↦ ⟨hooks, result.ok, hhooks, rfl⟩) fun _ ↦
      List.mem_of_elem_eq_true rfl) fun stop ↦ ?_
    exact .bind (footprint_persist .hookFired rfl (by decide)) fun _ ↦ .pure _

theorem footprint_recordResult {call : NormalizedToolCall} {result : ToolExecutionResult} :
    Footprint deps recordResultKinds (recordResult deps base call result) := by
  rw [recordResult]
  refine .bind (footprint_postToolUse.mono (by decide)) fun stop ↦ ?_
  refine .bind (footprint_persistItem .resultItem rfl (by decide)) fun _ ↦ ?_
  exact .bind (footprint_sayOutput (by decide)) fun _ ↦ .pure _

theorem footprint_afterResults {hookStop : Bool} (h : .signal ∈ ks) :
    Footprint deps ks (afterResults deps hookStop) := by
  rw [afterResults]
  refine .bind (footprint_signalAborted h) fun aborted ↦ ?_
  split
  · exact .pure _
  · split
    · exact .pure _
    · exact .pure _

/-- What the calls of a round record. -/
def callKinds : List Kind :=
  [.takeUp, .takeUpBatch, .signal, .budgetStop, .hookGate, .hookFired, .said, .evaluation,
    .policyDecision, .moved, .stateChanged, .approvalRequested, .lifecycle, .approval,
    .approvalResolved, .resultItem, .intentFor, .intent, .guard, .started, .settled, .execution,
    .postHook, .toolCall]

theorem footprint_runOneCall {call : NormalizedToolCall} :
    Footprint deps callKinds (runOneCall deps base call) := by
  rw [runOneCall]
  refine .bind (footprint_note (fun _ ↦ rfl) (List.mem_of_elem_eq_true rfl)) fun _ ↦ ?_
  refine .bind (footprint_takeUp.mono (by decide)) fun phase ↦ ?_
  cases phase with
  | some phase => exact .pure _
  | none =>
    refine .bind (footprint_passGates.mono (by decide)) fun admission ↦ ?_
    cases admission with
    | stop phase => exact .pure _
    | refused => exact .pure _
    | admitted =>
      refine .bind (footprint_beginSideEffect.mono (by decide)) fun begun ↦ ?_
      cases begun with
      | none => exact .pure _
      | some sideEffectId =>
        refine .bind (footprint_execute (by decide)) fun result ↦ ?_
        refine .bind (footprint_settle (by decide)) fun _ ↦ ?_
        refine .bind (footprint_recordResult.mono (by decide)) fun hookStop ↦ ?_
        exact footprint_afterResults (by decide)

theorem footprint_runSerially (calls : List NormalizedToolCall) :
    Footprint deps callKinds (runSerially deps base calls) := by
  induction calls with
  | nil => exact .pure _
  | cons call calls ih =>
    rw [runSerially]
    refine .bind footprint_runOneCall fun phase ↦ ?_
    cases phase with
    | go => exact ih
    | _ => exact .pure _

/-- What the calls of a batch record before they are executed. -/
def startKinds : List Kind := takeUpKinds ++ preToolUseKinds ++ .policyDecision :: beginKinds

theorem footprint_startBatch (items : List (NormalizedToolCall × ToolEvaluation)) :
    Footprint deps startKinds (startBatch deps base items) := by
  induction items with
  | nil => exact .pure _
  | cons item items ih =>
    rw [startBatch]
    refine .bind (footprint_takeUp.mono (by decide)) fun phase ↦ ?_
    cases phase with
    | some phase => exact .pure _
    | none =>
      refine .bind (footprint_preToolUse.mono (by decide)) fun blocked ↦ ?_
      split
      · exact ih
      · refine .bind (footprint_persistVerdict (by decide)) fun _ ↦ ?_
        refine .bind (footprint_beginSideEffect.mono (by decide)) fun begun ↦ ?_
        cases begun with
        | none => exact ih
        | some sideEffectId =>
          refine .bind ih fun more ↦ ?_
          cases more with
          | ok more => exact .pure _
          | error phase => exact .pure _

theorem footprint_settleBatch (items : List ((NormalizedToolCall × String) × ToolExecutionResult)) :
    Footprint deps (.settled :: recordResultKinds) (settleBatch deps base items) := by
  induction items with
  | nil => exact .pure _
  | cons item items ih =>
    rw [settleBatch]
    refine .bind (footprint_settle List.mem_cons_self) fun _ ↦ ?_
    refine .bind (footprint_recordResult.mono (List.subset_cons_self _ _)) fun stop ↦ ?_
    exact .bind ih fun stops ↦ .pure _

theorem footprint_evaluateAll (calls : List NormalizedToolCall) :
    Footprint deps [.evaluation] (runAll (calls.map (evaluate deps))) := by
  refine .runAll fun m hm ↦ ?_
  obtain ⟨call, -, rfl⟩ := List.mem_map.mp hm
  exact footprint_evaluate (List.mem_singleton_self _)

theorem footprint_executeAll (cleared : List (NormalizedToolCall × String)) :
    Footprint deps [.execution] (runAll (cleared.map fun x ↦ execute deps x.2 x.1)) := by
  refine .runAll fun m hm ↦ ?_
  obtain ⟨x, -, rfl⟩ := List.mem_map.mp hm
  exact footprint_execute (List.mem_singleton_self _)

theorem footprint_runParallelBatch (calls : List NormalizedToolCall) :
    Footprint deps callKinds (runParallelBatch deps base calls) := by
  rw [runParallelBatch]
  refine .bind (footprint_note (fun _ ↦ rfl) (List.mem_of_elem_eq_true rfl)) fun _ ↦ ?_
  refine .bind ((footprint_evaluateAll calls).mono (by decide)) fun verdicts ↦ ?_
  split
  · refine .bind ((footprint_startBatch _).mono (by decide)) fun started ↦ ?_
    cases started with
    | error phase => exact .pure _
    | ok cleared =>
      refine .bind ((footprint_executeAll cleared).mono (by decide)) fun results ↦ ?_
      refine .bind ((footprint_settleBatch _).mono (by decide)) fun hookStop ↦ ?_
      exact footprint_afterResults (by decide)
  · exact footprint_runSerially calls

/-! ## The model phase -/

/-- What the engine records outside the calls of a round. -/
def outerKinds : List Kind :=
  [.signal, .lifecycle, .plan, .preparation, .stream, .sleep, .budgetStop, .moved, .said, .adopted,
    .stateChanged, .turnEnded, .cancelled, .callItem, .otherItem, .requestStarted, .request,
    .modelCall]

theorem footprint_planBatches {calls : List NormalizedToolCall} (h : .plan ∈ ks) :
    Footprint deps ks (planBatches deps calls) := by
  rw [planBatches]
  cases hplan : deps.tools.planBatches with
  | some plan => exact footprint_ask (fun _ ↦ ⟨plan, hplan, rfl⟩) fun _ ↦ h
  | none => exact .pure _

theorem footprint_streamWithRetry (fuel : ℕ) {request : ModelRequest} {startedAt : ℤ}
    {attempt : ℕ} :
    Footprint deps [.stream, .signal, .sleep]
      (streamWithRetry deps request startedAt attempt fuel) := by
  induction fuel generalizing attempt with
  | zero => exact .throw _
  | succ fuel ih =>
    rw [streamWithRetry]
    refine .tryCatch (.bind (footprint_ask (fun _ ↦ rfl) fun _ ↦ List.mem_of_elem_eq_true rfl) fun events ↦
      .pure _) fun err ↦ ?_
    refine .bind (footprint_signalAborted (by decide)) fun aborted ↦ ?_
    split
    · exact .throw _
    · cases err with
      | other message => exact .throw _
      | harness error =>
        refine .bind footprint_now fun now ↦ ?_
        refine .bind (footprint_read fun _ ↦ .inr (.inl rfl)) fun r ↦ ?_
        refine .bind (.orThrow _) fun decision ↦ ?_
        cases decision with
        | error reason => exact .throw _
        | ok delayMs =>
          exact .bind (footprint_ask (fun _ ↦ rfl) fun _ ↦ List.mem_of_elem_eq_true rfl) fun _ ↦ ih

theorem footprint_persistItems {bodies : List ItemBody} (h : ∀ body ∈ bodies, body.kind ∈ ks) :
    Footprint deps ks (persistItems deps base bodies) := by
  induction bodies with
  | nil => exact .pure ()
  | cons body bodies ih =>
    rw [List.forall_mem_cons] at h
    exact .bind (footprint_persistItem body.kind rfl h.1) fun _ ↦ ih h.2

theorem kind_of_mem_roundItems {round : NormalizedRound} {body : ItemBody}
    (h : body ∈ roundItems round) : body.kind ∈ [Kind.callItem, .otherItem] := by
  simp only [roundItems, List.mem_append, List.mem_map, Option.mem_toList, Option.map_eq_some_iff]
    at h
  obtain ((h | h) | ⟨call, -, rfl⟩) | ⟨usage, -, rfl⟩ := h
  · rw [reasoningItem] at h
    split at h
    · cases h; exact List.mem_of_elem_eq_true rfl
    · split at h
      · cases h; exact List.mem_of_elem_eq_true rfl
      · cases h
  · split at h
    · cases h
    · rw [List.mem_singleton.mp h]; exact List.mem_of_elem_eq_true rfl
  · exact List.mem_of_elem_eq_true rfl
  · exact List.mem_of_elem_eq_true rfl

/-- What preparing the conversation records. -/
def prepareKinds : List Kind := .preparation :: .adopted :: .signal :: endKinds

theorem footprint_prepareContext : Footprint deps prepareKinds (prepareContext deps base) := by
  rw [prepareContext]
  cases hprepare : deps.context with
  | none => exact .pure _
  | some prepare =>
    refine .bind (footprint_get _) fun turn ↦ ?_
    refine .bind (footprint_ask (fun _ ↦ ⟨prepare, hprepare, rfl⟩) fun _ ↦
      List.mem_of_elem_eq_true rfl) fun prep ↦ ?_
    refine .bind (footprint_signalAborted (by decide)) fun aborted ↦ ?_
    split
    · refine .bind (footprint_cancel.mono (by decide)) fun _ ↦ ?_
      exact .bind footprint_setTerminalReason fun _ ↦ .pure _
    · refine .bind (footprint_adopt (by decide)) fun _ ↦ ?_
      exact .bind (.when fun _ ↦ footprint_fireLifecycle (by decide)) fun _ ↦ .pure _

/-- What a request of the model records. -/
def requestKinds : List Kind :=
  [.requestStarted, .request, .stream, .signal, .sleep, .callItem, .otherItem]

theorem footprint_requestRound {ctx : DriveContext} :
    Footprint deps requestKinds (requestRound deps base ctx) := by
  rw [requestRound]
  refine .bind (footprint_get _) fun turn ↦ ?_
  refine .bind (footprint_persist .requestStarted rfl (by decide)) fun _ ↦ ?_
  refine .bind footprint_now fun startedAt ↦ ?_
  refine .bind ((footprint_streamWithRetry _).mono (by decide)) fun round ↦ ?_
  refine .bind (footprint_modifyTurn (fun _ ↦ rfl) (fun _ ↦ rfl) fun _ ↦ rfl) fun _ ↦ ?_
  refine .bind (footprint_persist .request rfl (by decide)) fun _ ↦ ?_
  refine .bind (footprint_persistItems fun body hb ↦ ?_) fun _ ↦ ?_
  · exact (show [Kind.callItem, .otherItem] ⊆ requestKinds by decide) (kind_of_mem_roundItems hb)
  · exact .bind (.when fun _ ↦ footprint_modifyTurn (fun _ ↦ rfl) (fun _ ↦ rfl) fun _ ↦ rfl) fun _ ↦ .pure _

theorem footprint_endFor {state : TurnState} {reason : TerminationReason} {β : Type} {b : β} :
    Footprint deps endKinds (do
      endTurn deps base state reason
      setTerminalReason reason
      pure b) :=
  .bind footprint_endTurn fun _ ↦ .bind footprint_setTerminalReason fun _ ↦ .pure _

theorem footprint_modelPhase {ctx : DriveContext} :
    Footprint deps outerKinds (modelPhase deps base ctx) := by
  rw [modelPhase]
  refine .bind footprint_now fun now ↦ ?_
  refine .bind (footprint_useBudget (.inl (by decide)) (.inr fun b ↦
    b.toolCalls_beforeModelCall)) fun verdict ↦ ?_
  cases verdict with
  | some reason =>
    exact .bind (footprint_note (fun _ ↦ rfl) (List.mem_of_elem_eq_true rfl)) fun _ ↦
      footprint_endFor.mono (by decide)
  | none =>
    refine .bind (footprint_transitionUnless (by decide)) fun _ ↦ ?_
    refine .bind (footprint_persistState (by decide)) fun _ ↦ ?_
    refine .bind (footprint_prepareContext.mono (by decide)) fun goes ↦ ?_
    split
    · refine .bind (footprint_requestRound.mono (by decide)) fun round ↦ ?_
      split
      · exact footprint_endFor.mono (by decide)
      · refine .bind (.when fun _ ↦ footprint_say (by decide)) fun _ ↦ ?_
        exact .bind (footprint_say (by decide)) fun _ ↦ .pure _
    · exact .pure _

/-! ## The loop -/

theorem footprint_concludePhase {phase : ToolPhase} :
    Footprint deps (.budgetStop :: endKinds) (concludePhase deps base phase) := by
  cases phase with
  | budget reason => exact footprint_endFor.mono (by decide)
  | cancelled =>
    exact .bind (footprint_cancel.mono (by decide)) fun _ ↦
      .bind footprint_setTerminalReason fun _ ↦ .pure _
  | hookStop => exact footprint_endFor.mono (by decide)
  | awaitingApproval pending =>
    exact .bind (footprint_modifyTurn (fun _ ↦ rfl) (fun _ ↦ rfl) fun _ ↦ rfl) fun _ ↦ .pure _
  | go =>
    refine .bind (footprint_useBudget (.inr fun _ ↦ rfl) (.inr fun _ ↦ rfl)) fun verdict ↦ ?_
    cases verdict with
    | some reason =>
      exact .bind (footprint_note (fun _ ↦ rfl) (List.mem_of_elem_eq_true rfl)) fun _ ↦
        footprint_endFor.mono (by decide)
    | none => exact .pure _

/-- What a round of calls records, from taking it up to concluding it. -/
def toolPhaseKinds : List Kind := .plan :: .turnEnded :: .cancelled :: callKinds

theorem footprint_runGroups (calls : List NormalizedToolCall) (groups : List (List String)) :
    Footprint deps callKinds (runGroups deps base calls groups) := by
  have hgroup : ∀ calls, Footprint deps callKinds (runGroup deps base calls) := by
    intro calls
    rw [runGroup.eq_def]
    split
    · exact .pure _
    · exact footprint_runOneCall
    · exact footprint_runParallelBatch _
  induction groups with
  | nil => exact .pure _
  | cons group groups ih =>
    rw [runGroups]
    refine .bind (hgroup _) fun phase ↦ ?_
    cases phase with
    | go => exact ih
    | _ => exact .pure _

theorem footprint_toolPhase {calls : List NormalizedToolCall} :
    Footprint deps toolPhaseKinds (toolPhase deps base calls) := by
  rw [toolPhase]
  split
  · exact .pure _
  · refine .bind (footprint_transitionUnless (by decide)) fun _ ↦ ?_
    refine .bind (footprint_persistState (by decide)) fun _ ↦ ?_
    rw [runToolCalls, bind_assoc]
    refine .bind (footprint_planBatches (by decide)) fun groups ↦ ?_
    refine .bind ((footprint_runGroups calls groups).mono (by decide)) fun phase ↦ ?_
    refine .bind (footprint_fireLifecycle (by decide)) fun _ ↦ ?_
    exact footprint_concludePhase.mono (by decide)

theorem footprint_failTurn (h : .moved ∈ ks) : Footprint deps ks (failTurn (σ := σ)) :=
  .bind (footprint_moveMachine h) fun _ ↦ footprint_moveMachine h

/-- What the handler of failures records. -/
def catchKinds : List Kind := .signal :: .request :: endKinds

theorem footprint_driveCatch {e : Thrown} : Footprint deps catchKinds (driveCatch deps base e) := by
  rw [driveCatch]
  refine .bind (footprint_signalAborted (by decide)) fun aborted ↦ ?_
  refine .bind (footprint_get _) fun terminal ↦ ?_
  split
  · exact .bind (.when fun _ ↦ footprint_cancel.mono (by decide)) fun _ ↦
      footprint_setTerminalReason
  · refine .bind (.when fun _ ↦ footprint_failTurn (by decide)) fun _ ↦ ?_
    refine .bind footprint_setTerminalReason fun _ ↦ ?_
    refine .bind (footprint_persist .request rfl (by decide)) fun _ ↦ ?_
    refine .bind (footprint_persist .turnEnded rfl (by decide)) fun _ ↦ ?_
    exact footprint_fireStop (by decide)

theorem footprint_drainNotifications (hs : .said ∈ ks) (hl : .lifecycle ∈ ks) :
    Footprint deps ks (drainNotifications deps) := by
  rw [drainNotifications]
  cases hdrain : deps.notifications with
  | none => exact .pure ()
  | some drain =>
    refine .bind (footprint_read fun _ ↦ .inr (.inr ⟨drain, hdrain, rfl⟩)) fun drained ↦ ?_
    refine .bind (footprint_say hs) fun _ ↦ ?_
    exact .when fun _ ↦ footprint_fireLifecycle hl

end TurnEngine

end QwenHarness
