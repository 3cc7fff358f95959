import QwenHarness.Runtime.SideEffects

/-!
# How a turn ends

A turn should end with one `turn-ended` that carries its state, or stay suspended with the request
nobody could answer. What can prevent that is a failure in a state from which the machine has no
step to `recovering`, since the handler of failures takes that step: while the turn is preparing or
awaiting an approval. The handler itself then throws, and the turn is left without an end. It is
saved only if the signal is seen aborted right after the failure, for cancelling is always legal.

Everywhere else in the loop the machine is streaming or executing, and there every exit leads to an
end. `enter_endsWell_iff` says that these failures are the only exception.
-/

namespace QwenHarness

open EventStore (AppendInput)
open Effect

/-! ## Ends and failures -/

/-- The state a record says the turn ended in. -/
def Obs.ended : Obs → Option TurnState
  | .append input (.ok ()) =>
    match input.payload with
    | .turnEnded state _ => some state
    | _ => none
  | _ => none

/-- The states the records say the turn ended in. -/
def ends (obs : List Obs) : List TurnState := obs.filterMap Obs.ended

section Strands

variable {σ : Type}

/-- A failure where the machine has no step to `recovering`: something thrown while the turn is
preparing or awaiting an approval, or a budget that stops it while it is awaiting one. -/
def Entry.strands (e : Entry σ) : Bool :=
  match e.obs with
  | .signal _ => false
  | .budgetStop _ => decide (e.state = .awaitingApproval)
  | o => o.interrupts && (decide (e.state = .preparing) || decide (e.state = .awaitingApproval))

/-- Every such failure is followed at once by a signal seen aborted. -/
def Recoverable (records : List (Entry σ)) : Prop :=
  ∀ (i : ℕ) (e : Entry σ), records[i]? = some e → e.strands = true →
    ∃ e', records[i + 1]? = some e' ∧ e'.obs = .signal true

/-- What is asked of a turn: it returns; in a terminal state it has ended once, in that state; and
if it has not ended it is suspended with the request that is open. -/
def EndsWell : EStateM.Result Thrown (World σ) TurnResult → Prop
  | .ok result w =>
    (isTerminalTurnState result.state = true → ends w.obs = [result.state]) ∧
      (ends w.obs = [] → result.state = .awaitingApproval ∧ result.pendingApproval.isSome = true)
  | .error _ _ => False

/-- A turn that threw did not end well. -/
theorem not_endsWell {x : EStateM.Result Thrown (World σ) TurnResult} (h : returned x = false) :
    ¬EndsWell x := by
  cases x with
  | ok result w => cases h
  | error e w => exact id

variable {records seg : List (Entry σ)} {e e' : Entry σ}

theorem strands_of_quiet (h : e.obs.interrupts = false) : e.strands = false := by
  rw [Entry.strands]
  split
  · rfl
  · rename_i reason hobs
    rw [hobs] at h
    cases h
  · rw [h, Bool.false_and]

theorem strands_of_state (hp : e.state ≠ .preparing) (ha : e.state ≠ .awaitingApproval) :
    e.strands = false := by
  rw [Entry.strands]
  split
  · rfl
  · exact decide_eq_false ha
  · rw [decide_eq_false hp, decide_eq_false ha, Bool.or_self, Bool.and_false]

theorem recoverable_of_quiet (h : ∀ e ∈ records, e.strands = false) : Recoverable records := by
  intro i e hi he
  rw [h e (List.mem_of_getElem? hi)] at he
  cases he

theorem Recoverable.append (h : Recoverable records) (hseg : ∀ e ∈ seg, e.strands = false) :
    Recoverable (records ++ seg) := by
  intro i e hi he
  by_cases hlt : i < records.length
  · rw [List.getElem?_append_left hlt] at hi
    obtain ⟨e', hi', he'⟩ := h i e hi he
    have hlt' : i + 1 < records.length := (List.getElem?_eq_some_iff.mp hi').1
    exact ⟨e', by rwa [List.getElem?_append_left hlt'], he'⟩
  · rw [List.getElem?_append_right (by omega)] at hi
    rw [hseg e (List.mem_of_getElem? hi)] at he
    cases he

/-- A failure is mended by a signal that is seen aborted right after it. -/
theorem Recoverable.caught (h : Recoverable records) (he' : e'.obs = .signal true) :
    Recoverable (records ++ [e] ++ [e']) := by
  intro i f hi hf
  rw [List.append_assoc] at hi ⊢
  by_cases hlt : i < records.length
  · rw [List.getElem?_append_left hlt] at hi
    obtain ⟨f', hi', hf'⟩ := h i f hi hf
    have hlt' : i + 1 < records.length := (List.getElem?_eq_some_iff.mp hi').1
    exact ⟨f', by rwa [List.getElem?_append_left hlt'], hf'⟩
  · have hlen : i < (records ++ ([e] ++ [e'])).length := (List.getElem?_eq_some_iff.mp hi).1
    simp only [List.length_append, List.length_singleton] at hlen
    rcases (show i = records.length ∨ i = records.length + 1 by omega) with rfl | rfl
    · exact ⟨e', by simp, he'⟩
    · have hfe : f = e' := by simpa using hi.symm
      rw [hfe, Entry.strands, he'] at hf
      cases hf

/-- A failure that is not followed by an abort cannot be mended. -/
theorem not_recoverable (he : e.strands = true)
    (hseg : ∀ e' ∈ seg.head?, e'.obs ≠ .signal true) : ¬Recoverable (records ++ e :: seg) := by
  intro h
  obtain ⟨e', hi', he'⟩ := h records.length e (by simp) he
  rw [List.getElem?_append_right (by omega)] at hi'
  rcases seg with - | ⟨f, seg⟩
  · simp at hi'
  · simp only [Nat.add_sub_cancel_left, List.getElem?_cons_succ, List.getElem?_cons_zero,
      Option.some.injEq] at hi'
    exact hseg f (by simp) (hi' ▸ he')

end Strands

/-! ## Where the turn stands -/

section Standing

variable {σ α : Type} {deps : TurnEngineDeps σ} {n : ℕ} {S S' : List TurnState} {w w' : World σ}
  {o : Obs} {s : TurnState}

/-- The turn has not ended, nothing has stranded it, it is in one of these states, and it has made
so many calls of the model. -/
structure At (n : ℕ) (S : List TurnState) (w : World σ) : Prop where
  state : w.turn.machine.state ∈ S
  unended : ends w.obs = []
  recoverable : Recoverable w.trace
  calls : w.turn.budget.modelCalls = n

/-- The turn has ended in this state. -/
structure Ended (s : TurnState) (w : World σ) : Prop where
  terminal : isTerminalTurnState s = true
  state : w.turn.machine.state = s
  ended : ends w.obs = [s]
  recoverable : Recoverable w.trace

/-- How a turn should be left: ended, or suspended with the open request. -/
inductive Over (w : World σ) : Prop
  | ended (s : TurnState) (h : Ended s w)
  | suspended (n : ℕ) (h : At n [.awaitingApproval] w)
      (pending : w.turn.pendingApproval.isSome = true)

/-- The last record is a failure that strands the turn while it awaits an approval. -/
structure Stranded (w : World σ) : Prop where
  state : w.turn.machine.state = .awaitingApproval
  unended : ends w.obs = []
  last : ∃ records e, w.trace = records ++ [e] ∧ e.strands = true ∧ Recoverable records

/-- Something was thrown in the loop: where the machine can recover, or where it is stranded. -/
inductive Failed (w : World σ) : Prop
  | recovering (n : ℕ) (h : At n [.modelStreaming, .executing] w)
  | stranded (h : Stranded w)

/-- Nothing saves the turn any more. -/
def Lost (w : World σ) : Prop := ¬Recoverable w.trace

theorem At.mono (h : At n S w) (hS : S ⊆ S') : At n S' w :=
  ⟨hS h.state, h.unended, h.recoverable, h.calls⟩

theorem ends_append {obs seg : List Obs} (h : ∀ o ∈ seg, o.ended = none) :
    ends (obs ++ seg) = ends obs := by
  rw [ends, List.filterMap_append, List.filterMap_eq_nil_iff.mpr h, List.append_nil, ends]

theorem ended_eq_none (h : o.kind ≠ .turnEnded) : o.ended = none := by
  rw [Obs.ended.eq_def]
  split
  · rename_i input
    split
    · rename_i state reason hp
      exact absurd (congrArg EventPayload.kind hp) h
    · rfl
  · rfl

theorem At.adds (h : At n S w) (ha : Adds deps o w w') (ho : o.ended = none)
    (hs : (⟨w.env, w.turn.machine.state, o⟩ : Entry σ).strands = false) : At n S w' := by
  refine ⟨ha.machine ▸ h.state, ?_, ?_, ha.budget ▸ h.calls⟩
  · rw [ha.obs, ends_append (by simpa using ho), h.unended]
  · rw [ha.trace]
    exact h.recoverable.append fun e he ↦ by rwa [List.mem_singleton.mp he]

/-- A record that fails nowhere. -/
theorem At.quiet (h : At n S w) (ha : Adds deps o w w') (ho : o.ended = none)
    (hi : o.interrupts = false) : At n S w' :=
  h.adds ha ho (strands_of_quiet hi)

/-- The states in which the calls of a round, and the model, are asked. -/
def loopStates : List TurnState := [.modelStreaming, .executing, .awaitingApproval]

/-- A failure while an approval is awaited. -/
theorem At.strand (h : At n S w) (ha : Adds deps o w w') (ho : o.ended = none)
    (hw : w.turn.machine.state = .awaitingApproval)
    (hs : (⟨w.env, .awaitingApproval, o⟩ : Entry σ).strands = true) : Stranded w' := by
  refine ⟨ha.machine ▸ hw, ?_, w.trace, _, ha.trace, ?_, h.recoverable⟩
  · rw [ha.obs, ends_append (by simpa using ho), h.unended]
  · rw [hw]
    exact hs

/-- Something is thrown. -/
theorem At.fail (h : At n S w) (ha : Adds deps o w w') (ho : o.ended = none) (hS : S ⊆ loopStates)
    (hs : ∀ env, (⟨env, .awaitingApproval, o⟩ : Entry σ).strands = true) : Failed w' := by
  by_cases hw : w.turn.machine.state = .awaitingApproval
  · exact .stranded (h.strand ha ho hw (hs _))
  · have hmem := hS h.state
    simp only [loopStates, List.mem_cons, List.not_mem_nil, or_false] at hmem
    have hrun : w.turn.machine.state ∈ [TurnState.modelStreaming, .executing] := by
      rw [List.mem_cons, List.mem_singleton]
      tauto
    have hp : w.turn.machine.state ≠ .preparing := by
      rcases hmem with h' | h' | h' <;> simp [h']
    exact .recovering n (At.adds ⟨hrun, h.unended, h.recoverable, h.calls⟩ ha ho
      (strands_of_state hp hw))

/-- Streaming or executing, nothing strands the turn. -/
theorem At.leaves {ks : List Kind} (h : At n S w) (hl : Leaves deps ks w w')
    (hS : S ⊆ [.modelStreaming, .executing])
    (hks : .moved ∉ ks ∧ .turnEnded ∉ ks ∧ .modelCall ∉ ks) : At n S w' := by
  obtain ⟨hmoved, hended, hcall⟩ := hks
  obtain ⟨seg, htrace, hkinds, hstates, -⟩ := hl.records
  refine ⟨hl.machine hmoved ▸ h.state, ?_, ?_, hl.modelCalls hcall ▸ h.calls⟩
  · obtain ⟨seg, hobs, hkinds⟩ := hl.obs
    rw [hobs, ends_append fun o ho ↦ ended_eq_none fun hk ↦ hended (hk ▸ hkinds o ho), h.unended]
  · rw [htrace]
    refine h.recoverable.append fun e he ↦ ?_
    have hmem := hS h.state
    rw [← hstates hmoved e he, List.mem_cons, List.mem_singleton] at hmem
    refine strands_of_state ?_ ?_ <;> rcases hmem with h' | h' <;> simp [h']

theorem at_footprint {ks : List Kind} {m : Engine σ α} (hm : Footprint deps ks m)
    (hks : .moved ∉ ks ∧ .turnEnded ∉ ks ∧ .modelCall ∉ ks)
    (hS : S ⊆ [.modelStreaming, .executing]) :
    Triple (At n S) m (fun _ ↦ At n S) fun _ ↦ Failed := by
  have hkeeps : Keeps (At n S) m := hm.keeps fun hl h ↦ h.leaves hl hS hks
  exact hkeeps.conseq (fun _ h ↦ h) (fun _ _ h ↦ h) fun _ _ h ↦ .recovering n (h.mono hS)

/-- A call to the outside while the turn may be awaiting an approval. -/
theorem at_ask {obs : Except Thrown α → Obs} {call : Call σ α}
    (hcall : ∀ s, Answers deps s (obs (call s).1) (call s).2)
    (hended : ∀ answer, (obs answer).ended = none) (hok : ∀ a, (obs (.ok a)).interrupts = false)
    (herror : ∀ e env, (⟨env, .awaitingApproval, obs (.error e)⟩ : Entry σ).strands = true)
    (hS : S ⊆ loopStates) : Triple (At n S) (ask obs call) (fun _ ↦ At n S) fun _ ↦ Failed :=
  ask_rule hcall (fun a h ha ↦ h.quiet ha (hended _) (hok a))
    fun e h ha ↦ h.fail ha (hended _) hS (herror e)

/-- A legal step of the machine. -/
theorem move_rule {f : TurnMachine → Except Thrown TurnMachine} {target : TurnState}
    {r : Thrown → World σ → Prop}
    (hf : ∀ m : TurnMachine, m.state ∈ S → ∃ m', f m = .ok m' ∧ m'.state = target) :
    Triple (At n S) (moveMachine f) (fun _ ↦ At n [target]) r := by
  intro w hw
  obtain ⟨m', hm', rfl⟩ := hf _ hw.state
  rw [moveMachine, hm']
  refine ⟨List.mem_singleton_self _, ?_, ?_, hw.calls⟩
  · change ends (w.record (.moved m'.state)).obs = []
    rw [World.obs_record, ends_append (by simp [Obs.ended]), hw.unended]
  · exact hw.recoverable.append fun e he ↦ by rw [List.mem_singleton.mp he]; rfl

/-- An illegal step of the machine. It throws and nothing happens. -/
theorem illegal_rule {f : TurnMachine → Except Thrown TurnMachine} {p : World σ → Prop}
    {q : Unit → World σ → Prop} (hf : ∀ w, p w → ∃ e, f w.turn.machine = .error e) :
    Triple p (moveMachine f) q fun _ ↦ p := by
  intro w hw
  obtain ⟨e, he⟩ := hf w hw
  rw [moveMachine, he]
  exact hw

end Standing

namespace TurnEngine

variable {σ α : Type} {deps : TurnEngineDeps σ} {base : PersistBase} {n : ℕ} {S : List TurnState}
  {s target : TurnState} {call : NormalizedToolCall} {r : Thrown → World σ → Prop}

/-! ## Steps -/

theorem at_modifyTurn {f : Turn → Turn} (h : ∀ t, (f t).machine = t.machine)
    (hb : ∀ t, (f t).budget = t.budget) :
    Triple (At n S) (modifyTurn (σ := σ) f) (fun _ ↦ At n S) r :=
  fun w hw ↦ ⟨(h w.turn).symm ▸ hw.state, hw.unended, hw.recoverable, (hb w.turn).symm ▸ hw.calls⟩

theorem at_say (deps : TurnEngineDeps σ) {items : List ModelInputItem} :
    Triple (At n S) (say (σ := σ) items) (fun _ ↦ At n S) r :=
  say_rule fun h (ha : Adds deps _ _ _) ↦ h.quiet ha rfl rfl

theorem at_useBudget {f : BudgetTracker → BudgetVerdict × BudgetTracker}
    (h : ∀ b, (f b).2.modelCalls = b.modelCalls) :
    Triple (At n S) (useBudget (σ := σ) f) (fun _ ↦ At n S) r :=
  fun w hw ↦ ⟨hw.state, hw.unended, hw.recoverable, (h w.turn.budget).trans hw.calls⟩

theorem at_signal : Triple (At n S) (signalAborted deps) (fun _ ↦ At n S) r :=
  signal_rule fun _ h ha ↦ h.adds ha rfl rfl

theorem at_isTerminal (hS : ∀ s ∈ S, isTerminalTurnState s = false) :
    Triple (At n S) (isTerminal (σ := σ)) (fun terminal w ↦ terminal = false ∧ At n S w) r :=
  fun _ hw ↦ ⟨hS _ hw.state, hw⟩

theorem at_transition (hS : ∀ s ∈ S, canTransition s target = true) :
    Triple (At n S) (transition (σ := σ) target) (fun _ ↦ At n [target]) r :=
  move_rule fun _ hm ↦ ⟨_, TurnMachine.transition_eq_ok (hS _ hm), rfl⟩

theorem at_terminate {reason : TerminationReason} (hS : ∀ s ∈ S, canTransition s target = true) :
    Triple (At n S) (terminate (σ := σ) target reason) (fun _ ↦ At n [target]) r := by
  refine move_rule fun m hm ↦ ?_
  rw [TurnMachine.terminate, TurnMachine.transition_eq_ok (hS _ hm)]
  exact ⟨_, rfl, rfl⟩

theorem at_transitionUnless (hS : ∀ s ∈ S, s ≠ target → canTransition s target = true) :
    Triple (At n S) (transitionUnless (σ := σ) target) (fun _ ↦ At n [target]) r := by
  intro w hw
  rw [transitionUnless]
  by_cases h : w.turn.machine.state = target
  · rw [if_pos h]
    exact ⟨List.mem_singleton.mpr h, hw.unended, hw.recoverable, hw.calls⟩
  · rw [if_neg h]
    refine at_transition (S := [w.turn.machine.state]) ?_ w
      ⟨List.mem_singleton_self _, hw.unended, hw.recoverable, hw.calls⟩
    rintro s hs
    rw [List.mem_singleton.mp hs]
    exact hS _ hw.state h

/-! ## Ending -/

/-- Firing the stop lifecycle changes nothing and never throws. -/
theorem ended_fireStop {reason : TerminationReason} :
    Triple (Ended s) (fireStop deps s reason) (fun _ ↦ Ended s) r := by
  have hfire : ∀ event, Triple (Ended s) (fireQuietly deps event) (fun _ ↦ Ended s) r := by
    intro event
    have hstep : ∀ {w w' : World σ} {answer}, Ended s w → Adds deps (.lifecycle event answer) w w' →
        Ended s w' := by
      intro w w' answer h ha
      have hne : ∀ t, isTerminalTurnState t = false → w.turn.machine.state ≠ t := by
        rintro t ht rfl
        rw [h.state, h.terminal] at ht
        cases ht
      refine ⟨h.terminal, ha.machine ▸ h.state, ?_, ?_⟩
      · rw [ha.obs, ends_append (by simp [Obs.ended]), h.ended]
      · rw [ha.trace]
        refine h.recoverable.append fun e he ↦ ?_
        rw [List.mem_singleton.mp he]
        exact strands_of_state (hne _ rfl) (hne _ rfl)
    refine .tryCatch (s := fun _ ↦ Ended s) ?_ fun _ ↦ .pure fun _ h ↦ h
    rw [fireLifecycle]
    cases hfire : deps.hooks.bind TurnHooks.fireLifecycle with
    | some fire =>
      exact ask_rule (fun _ ↦ ⟨fire, hfire, rfl⟩) (fun _ h ha ↦ hstep h ha) fun _ h ha ↦ hstep h ha
    | none => exact .pure fun _ h ↦ h
  rw [fireStop]
  exact .bind (.when (fun _ ↦ hfire _) fun _ _ h ↦ h) fun _ ↦ hfire _

section Sink

variable (hsink : ∀ input s, (deps.sink.append input s).1 = .ok ())
include hsink

/-- A sink that never throws. -/
theorem persist_rule {p q : World σ → Prop} {payload : EventPayload} {itemId : Option String}
    (h : ∀ {input w w'}, input.payload = payload → p w → Adds deps (.append input (.ok ())) w w' →
      q w') :
    Triple p (persist deps base payload itemId) (fun _ ↦ q) r := by
  intro w hw
  have hok := hsink
    { threadId := base.threadId, payload, actor := base.actor
      correlationId := base.correlationId, causationId := none, turnId := some base.turnId
      itemId, permissionProfile := base.permissionProfile } w.env
  rw [persist, ask]
  generalize hx : deps.sink.append _ w.env = x at hok
  rcases x with ⟨answer, env⟩
  obtain rfl : answer = .ok () := hok
  exact h rfl hw ⟨rfl, hx.symm, rfl, rfl, rfl, fun _ _ ↦ rfl⟩

theorem at_persist {payload : EventPayload} {itemId : Option String}
    (hk : payload.kind ≠ .turnEnded) :
    Triple (At n S) (persist deps base payload itemId) (fun _ ↦ At n S) r :=
  persist_rule hsink fun hp h ha ↦ h.quiet ha (ended_eq_none (by subst hp; exact hk)) rfl

theorem at_persistItem {body : ItemBody} :
    Triple (At n S) (persistItem deps base body) (fun _ ↦ At n S) r := by
  refine .bind (s := fun _ ↦ At n S) (fun w hw ↦ ⟨hw.state, hw.unended, hw.recoverable, hw.calls⟩)
    fun id ↦ ?_
  refine .bind (s := fun _ ↦ At n S) (fun w hw ↦ ⟨hw.state, hw.unended, hw.recoverable, hw.calls⟩)
    fun now ↦ at_persist hsink ?_
  cases body <;> exact nofun

theorem at_persistState : Triple (At n S) (persistState deps base) (fun _ ↦ At n S) r := by
  intro w hw
  have hcases : (∃ payload : EventPayload, payload.kind ≠ .turnEnded ∧
      persistState deps base w = persist deps base payload none w) ∨
      persistState deps base w = .ok () w := by
    rw [persistState]
    split
    · split
      · exact .inl ⟨.turnStateChanged _ _, by rintro ⟨⟩, rfl⟩
      · exact .inr rfl
    · exact .inr rfl
  rcases hcases with ⟨payload, hk, hp⟩ | hp
  · rw [hp]
    exact at_persist hsink hk w hw
  · rw [hp]
    exact hw

/-- The one event that says how the turn ended. -/
theorem persist_turnEnded {reason : TerminationReason} (hs : isTerminalTurnState s = true) :
    Triple (At n [s]) (persist deps base (.turnEnded s reason)) (fun _ ↦ Ended s) r := by
  refine persist_rule hsink fun {input w w'} hp h ha ↦ ?_
  have hended : (Obs.append input (.ok ())).ended = some s := by rw [Obs.ended, hp]
  refine ⟨hs, ha.machine ▸ List.mem_singleton.mp h.state, ?_, ?_⟩
  · rw [ha.obs, ends, List.filterMap_append, ← ends, h.unended]
    simp [hended]
  · rw [ha.trace]
    refine h.recoverable.append fun e he ↦ ?_
    rw [List.mem_singleton.mp he]
    exact strands_of_quiet rfl

theorem cancel_ends (hS : ∀ s ∈ S, isTerminalTurnState s = false) :
    Triple (At n S) (cancel deps base) (fun _ ↦ Ended .cancelled) r := by
  rw [cancel]
  refine .bind (at_isTerminal hS) fun terminal ↦ .assuming ?_
  rintro rfl
  refine .bind (at_terminate fun s hs ↦ canTransition_cancelled (hS s hs)) fun _ ↦ ?_
  refine .bind (at_persist hsink (by rintro ⟨⟩)) fun _ ↦ ?_
  exact .bind (persist_turnEnded hsink rfl) fun _ ↦ ended_fireStop

theorem endTurn_ends {reason : TerminationReason} (hs : isTerminalTurnState s = true)
    (hS : ∀ t ∈ S, canTransition t s = true) :
    Triple (At n S) (endTurn deps base s reason) (fun _ ↦ Ended s) r := by
  have hlive : ∀ t ∈ S, isTerminalTurnState t = false := by
    intro t ht
    by_contra hne
    have hnone := (isTerminalTurnState_iff t).mp (by simpa using hne)
    have hmem := hS t ht
    rw [canTransition, hnone] at hmem
    cases hmem
  rw [endTurn]
  refine .bind (at_isTerminal hlive) fun terminal ↦ .assuming ?_
  rintro rfl
  refine .bind (at_terminate hS) fun _ ↦ ?_
  exact .bind (persist_turnEnded hsink hs) fun _ ↦ ended_fireStop

end Sink

/-! ## The calls of a round -/

/-- Where a phase leaves the turn. A cancelled call may leave its question open. -/
def Phased (n : ℕ) : ToolPhase → World σ → Prop
  | .cancelled => At n [.executing, .awaitingApproval]
  | .awaitingApproval _ => At n [.awaitingApproval]
  | .go | .budget _ | .hookStop => At n [.executing]

/-- Where taking a call up leaves the turn. -/
def TakenUp (n : ℕ) : Option ToolPhase → World σ → Prop
  | some phase => Phased n phase
  | none => At n [.executing]

/-- Where the gates leave the turn. -/
def Admitted (n : ℕ) : Admission → World σ → Prop
  | .stop phase => Phased n phase
  | .refused | .admitted => At n [.executing]

theorem takeUp_phased :
    Triple (At n [.executing]) (takeUp deps call) (TakenUp n) fun _ ↦ Failed := by
  have hstop : ∀ reason, Triple (At n [.executing]) (do
      note (σ := σ) (.budgetStop reason)
      pure (some (ToolPhase.budget reason))) (TakenUp n) fun _ ↦ Failed := fun reason ↦
    .bind (at_footprint (show Footprint deps _ _ from footprint_note (fun _ ↦ rfl)
      (List.mem_singleton_self Kind.budgetStop)) (by decide) (by decide)) fun _ ↦ .pure fun _ h ↦ h
  rw [takeUp]
  refine .bind at_signal fun aborted ↦ ?_
  split
  · exact .pure fun _ h ↦ h.mono (by decide)
  · refine .bind (at_useBudget fun b ↦ b.modelCalls_beforeToolCall) fun verdict ↦ ?_
    cases verdict with
    | some reason => exact hstop reason
    | none =>
      refine .bind (at_useBudget fun b ↦ b.modelCalls_observeToolCall) fun verdict ↦ ?_
      cases verdict with
      | some reason => exact hstop reason
      | none => exact .pure fun _ h ↦ h

theorem afterResults_phased {hookStop : Bool} :
    Triple (At n [.executing]) (afterResults deps hookStop) (Phased n) fun _ ↦ Failed := by
  rw [afterResults]
  refine .bind at_signal fun aborted ↦ ?_
  split
  · exact .pure fun _ h ↦ h.mono (by decide)
  · split
    · exact .pure fun _ h ↦ h
    · exact .pure fun _ h ↦ h

theorem at_fireLifecycle {event : LifecycleEvent} (hS : S ⊆ loopStates) :
    Triple (At n S) (fireLifecycle deps event) (fun _ ↦ At n S) fun _ ↦ Failed := by
  rw [fireLifecycle]
  cases hfire : deps.hooks.bind TurnHooks.fireLifecycle with
  | some fire =>
    exact at_ask (fun _ ↦ ⟨fire, hfire, rfl⟩) (fun _ ↦ rfl) (fun _ ↦ rfl) (fun _ _ ↦ rfl) hS
  | none => exact .pure fun _ h ↦ h

theorem at_requestApproval {request : ApprovalRequest} (hS : S ⊆ loopStates) :
    Triple (At n S) (requestApproval deps request) (fun _ ↦ At n S) fun _ ↦ Failed := by
  rw [requestApproval]
  cases hgate : deps.approvals with
  | some gate =>
    exact at_ask (fun _ ↦ ⟨gate, hgate, rfl⟩) (fun _ ↦ rfl) (fun _ ↦ rfl) (fun _ _ ↦ rfl) hS
  | none => exact .pure fun _ h ↦ h

section Calls

variable (hsink : ∀ input s, (deps.sink.append input s).1 = .ok ())
include hsink

theorem resolveApproval_at {granted : Bool} {scope : Option ApprovalScope} :
    Triple (At n [.awaitingApproval]) (resolveApproval deps base call granted scope)
      (fun _ ↦ At n [.executing]) r := by
  rw [resolveApproval]
  refine .bind (at_persist hsink (by rintro ⟨⟩)) fun _ ↦ .bind (at_transition (by decide)) fun _ ↦ ?_
  exact at_persistState hsink

/-- A throw while somebody is asked strands the turn. -/
theorem askApproval_phased {verdict : ToolEvaluation} :
    Triple (At n [.executing]) (askApproval deps base call verdict) (Admitted n)
      fun _ ↦ Failed := by
  rw [askApproval]
  refine .bind (at_transition (by decide)) fun _ ↦ .bind (at_persistState hsink) fun _ ↦ ?_
  refine .bind (at_persist hsink (by rintro ⟨⟩)) fun _ ↦ .bind (at_fireLifecycle (by decide)) fun _ ↦ ?_
  refine .bind (at_requestApproval (by decide)) fun decision ↦ .bind at_signal fun aborted ↦ ?_
  split
  · exact .pure fun _ h ↦ h.mono (by decide)
  · cases decision with
    | deferred reason => exact .pure fun _ h ↦ h
    | approved scope => exact .bind (resolveApproval_at hsink) fun _ ↦ .pure fun _ h ↦ h
    | denied reason =>
      refine .bind (resolveApproval_at hsink) fun _ ↦ .bind (at_persistItem hsink) fun _ ↦ ?_
      exact .bind (at_say deps) fun _ ↦ .pure fun _ h ↦ h

theorem passGates_phased :
    Triple (At n [.executing]) (passGates deps base call) (Admitted n) fun _ ↦ Failed := by
  rw [passGates]
  refine .bind (at_footprint footprint_preToolUse (by decide) (by decide)) fun blocked ↦ ?_
  split
  · exact .pure fun _ h ↦ h
  · rw [judge]
    refine .bind (at_footprint (footprint_evaluate (List.mem_singleton_self _)) (by decide)
      (by decide)) fun verdict ↦ .bind (at_persist hsink (by rintro ⟨⟩)) fun _ ↦ ?_
    split
    · refine .bind (at_persistItem hsink) fun _ ↦ .bind (at_fireLifecycle (by decide)) fun _ ↦ ?_
      exact .bind (at_say deps) fun _ ↦ .pure fun _ h ↦ h
    · exact askApproval_phased hsink
    · exact .pure fun _ h ↦ h

theorem runOneCall_phased :
    Triple (At n [.executing]) (runOneCall deps base call) (Phased n) fun _ ↦ Failed := by
  rw [runOneCall]
  refine .bind (at_footprint (show Footprint deps _ _ from footprint_note (fun _ ↦ rfl)
    (List.mem_singleton_self Kind.takeUp)) (by decide) (by decide)) fun _ ↦ ?_
  refine .bind takeUp_phased fun phase ↦ ?_
  cases phase with
  | some phase => exact .pure fun _ h ↦ h
  | none =>
    refine .bind (passGates_phased hsink) fun admission ↦ ?_
    cases admission with
    | stop phase => exact .pure fun _ h ↦ h
    | refused => exact .pure fun _ h ↦ h
    | admitted =>
      refine .bind (at_footprint footprint_beginSideEffect (by decide) (by decide)) fun begun ↦ ?_
      cases begun with
      | none => exact .pure fun _ h ↦ h
      | some sideEffectId =>
        refine .bind (at_footprint (footprint_execute (List.mem_singleton_self _)) (by decide)
          (by decide)) fun result ↦ ?_
        refine .bind (at_persist hsink (by rintro ⟨⟩)) fun _ ↦ ?_
        refine .bind (at_footprint footprint_recordResult (by decide) (by decide)) fun stop ↦ ?_
        exact afterResults_phased

omit hsink in
theorem startBatch_phased (items : List (NormalizedToolCall × ToolEvaluation)) :
    Triple (At n [.executing]) (startBatch deps base items)
      (fun | .ok _ => At n [.executing] | .error phase => Phased n phase) fun _ ↦ Failed := by
  induction items with
  | nil => exact .pure fun _ h ↦ h
  | cons item items ih =>
    rw [startBatch]
    refine .bind takeUp_phased fun phase ↦ ?_
    cases phase with
    | some phase => exact .pure fun _ h ↦ h
    | none =>
      refine .bind (at_footprint footprint_preToolUse (by decide) (by decide)) fun blocked ↦ ?_
      split
      · exact ih
      · refine .bind (at_footprint (footprint_persistVerdict (List.mem_singleton_self _))
          (by decide) (by decide)) fun _ ↦ ?_
        refine .bind (at_footprint footprint_beginSideEffect (by decide) (by decide)) fun begun ↦ ?_
        cases begun with
        | none => exact ih
        | some sideEffectId =>
          refine .bind ih fun more ↦ ?_
          cases more with
          | ok more => exact .pure fun _ h ↦ h
          | error phase => exact .pure fun _ h ↦ h

theorem runParallelBatch_phased (calls : List NormalizedToolCall) :
    Triple (At n [.executing]) (runParallelBatch deps base calls) (Phased n) fun _ ↦ Failed := by
  rw [runParallelBatch]
  refine .bind (at_footprint (show Footprint deps _ _ from footprint_note (fun _ ↦ rfl)
    (List.mem_singleton_self Kind.takeUpBatch)) (by decide) (by decide)) fun _ ↦ ?_
  refine .bind (at_footprint (footprint_evaluateAll calls) (by decide) (by decide))
    fun verdicts ↦ ?_
  split
  · refine .bind (startBatch_phased _) fun started ↦ ?_
    cases started with
    | error phase => exact .pure fun _ h ↦ h
    | ok cleared =>
      refine .bind (at_footprint (footprint_executeAll cleared) (by decide) (by decide))
        fun results ↦ ?_
      refine .bind (at_footprint (footprint_settleBatch _) (by decide) (by decide)) fun stop ↦ ?_
      exact afterResults_phased
  · exact runSerially_rule (q := Phased n) (fun _ ↦ .rfl) (fun _ ↦ runOneCall_phased hsink) calls

/-! ## The loop -/

omit hsink in
theorem over_setTerminalReason {reason : TerminationReason} :
    Triple Over (setTerminalReason (σ := σ) reason) (fun _ ↦ Over) r := by
  rintro w (⟨s, h⟩ | ⟨n, h, hp⟩)
  · exact .ended s ⟨h.terminal, h.state, h.ended, h.recoverable⟩
  · exact .suspended n ⟨h.state, h.unended, h.recoverable, h.calls⟩ hp

omit hsink in
/-- Once the turn has ended, only its reason is still set. -/
theorem over_after {m : Engine σ Unit} {p : World σ → Prop} {q : α → World σ → Prop}
    {reason : TerminationReason} {b : α} (hm : Triple p m (fun _ ↦ Ended s) r)
    (hq : ∀ w, Over w → q b w) :
    Triple p (do m; setTerminalReason reason; pure b) q r := by
  refine .bind (s := fun _ ↦ Over) (hm.conseq (fun _ h ↦ h) (fun _ _ h ↦ .ended s h)
    fun _ _ h ↦ h) fun _ ↦ ?_
  exact .bind over_setTerminalReason fun _ ↦ .pure hq

/-- Once the calls of a round have stopped the turn, it is over. -/
theorem concludePhase_stops {phase : ToolPhase} (hp : phase ≠ .go) :
    Triple (Phased n phase) (concludePhase deps base phase) (Continues (At n [.executing]) Over)
      fun _ ↦ Failed := by
  cases phase with
  | go => exact absurd rfl hp
  | budget reason => exact over_after (endTurn_ends hsink rfl (by decide)) fun _ h ↦ h
  | cancelled => exact over_after (cancel_ends hsink (by decide)) fun _ h ↦ h
  | hookStop => exact over_after (endTurn_ends hsink rfl (by decide)) fun _ h ↦ h
  | awaitingApproval pending =>
    exact fun w hw ↦ .suspended n ⟨hw.state, hw.unended, hw.recoverable, hw.calls⟩ rfl

omit hsink in
theorem concludePhase_goes :
    Triple (At n [.executing]) (concludePhase deps base .go)
      (Continues (At n [.executing]) Over) fun _ ↦ Failed :=
  fun _ hw ↦ ⟨hw.state, hw.unended, hw.recoverable, hw.calls⟩

/-- The loop starts with the calls of a resumed turn or of the last round, or with none. -/
def StartsLoop (n : ℕ) (calls : List NormalizedToolCall) : World σ → Prop :=
  At n (if calls = [] then [.preparing, .awaitingApproval] else [.awaitingApproval, .modelStreaming])

/-- Where the model phase starts. -/
def readyStates : List TurnState := [.preparing, .awaitingApproval, .executing]

theorem toolPhase_continues (calls : List NormalizedToolCall) :
    Triple (StartsLoop n calls) (toolPhase deps base calls) (Continues (At n readyStates) Over)
      fun _ ↦ Failed := by
  rcases calls with - | ⟨call, calls⟩
  · exact .pure fun w hw ↦ At.mono hw (by decide)
  have hgo : ∀ goes w, Continues (At (σ := σ) n [.executing]) Over goes w →
      Continues (At n readyStates) Over goes w := by
    intro goes w hw
    cases goes with
    | true => exact At.mono hw (by decide)
    | false => exact hw
  rw [toolPhase, List.isEmpty_cons, if_neg Bool.false_ne_true]
  refine .bind (at_transitionUnless (S := [.awaitingApproval, .modelStreaming]) (by decide))
    fun _ ↦ .bind (at_persistState hsink) fun _ ↦ ?_
  rw [runToolCalls, bind_assoc]
  refine .bind (at_footprint (footprint_planBatches (List.mem_singleton_self _)) (by decide)
    (by decide)) fun groups ↦ ?_
  refine .bind (runGroups_rule (q := Phased n) (fun _ ↦ .rfl) (fun _ ↦ runOneCall_phased hsink)
    (runParallelBatch_phased hsink) _ groups) fun phase ↦ ?_
  have hfire : Triple (Phased n phase) (fireLifecycle deps (.postToolBatch (call :: calls).length))
      (fun _ ↦ Phased n phase) fun _ ↦ Failed := by
    cases phase <;> exact at_fireLifecycle (by decide)
  refine .bind hfire fun _ ↦ ?_
  by_cases hp : phase = .go
  · subst hp
    exact concludePhase_goes.conseq (fun _ h ↦ h) hgo fun _ _ h ↦ h
  · exact (concludePhase_stops hsink hp).conseq (fun _ h ↦ h) hgo fun _ _ h ↦ h

/-- Where the budget leaves the turn before a call of the model. -/
def Budgeted (limit n : ℕ) : BudgetVerdict → World σ → Prop
  | some _ => At n readyStates
  | none => fun w ↦ n < limit ∧ At (n + 1) readyStates w

omit hsink in
theorem beforeModelCall_budgeted {now : ℤ} :
    Triple (At n readyStates) (useBudget (σ := σ) (·.beforeModelCall deps.budget now))
      (Budgeted deps.budget.maxModelCallsPerTurn n) r := by
  intro w hw
  have hstop := fun reason ↦
    @BudgetTracker.beforeModelCall_stop deps.budget w.turn.budget now reason
  have hgo := @BudgetTracker.beforeModelCall_continue deps.budget w.turn.budget now
  rw [useBudget]
  generalize w.turn.budget.beforeModelCall deps.budget now = x at hstop hgo
  rcases x with ⟨_ | reason, budget⟩
  · obtain ⟨hlt, rfl⟩ := hgo rfl
    exact ⟨hw.calls ▸ hlt, hw.state, hw.unended, hw.recoverable, congrArg (· + 1) hw.calls⟩
  · obtain rfl := hstop reason rfl
    exact ⟨hw.state, hw.unended, hw.recoverable, hw.calls⟩

/-- What the model phase leaves: calls to make, with one more call of the model counted below the
limit, or a turn that is over. -/
def Answered (limit n : ℕ) : Option (List NormalizedToolCall) → World σ → Prop
  | some calls => fun w ↦ n < limit ∧ StartsLoop (n + 1) calls w
  | none => Over

theorem prepareContext_continues :
    Triple (At n [.modelStreaming]) (prepareContext deps base)
      (Continues (At n [.modelStreaming]) Over) fun _ ↦ Failed := by
  rw [prepareContext]
  cases hprepare : deps.context with
  | none => exact .pure fun _ h ↦ h
  | some prepare =>
    refine .bind (s := fun _ ↦ At n [.modelStreaming]) (fun _ h ↦ h) fun turn ↦ ?_
    refine .bind (at_ask (fun _ ↦ ⟨prepare, hprepare, rfl⟩) (fun _ ↦ rfl) (fun _ ↦ rfl)
      (fun _ _ ↦ rfl) (by decide)) fun prep ↦ .bind at_signal fun aborted ↦ ?_
    split
    · exact over_after (cancel_ends hsink (by decide)) fun _ h ↦ h
    · refine .bind (s := fun _ ↦ At n [.modelStreaming])
        (adopt_rule fun h (ha : Adds deps _ _ _) ↦ h.quiet ha rfl rfl) fun _ ↦ ?_
      refine .bind (.when (fun _ ↦ at_fireLifecycle (by decide)) fun _ _ h ↦ h) fun _ ↦ ?_
      exact .pure fun _ h ↦ h

/-- A budget stops the turn before a call of the model. While an approval is awaited, there is no
step to `budget-exhausted`. -/
theorem budgetStop_over {reason : TerminationReason} :
    Triple (At n readyStates) (do
      note (.budgetStop reason)
      endTurn deps base .budgetExhausted reason
      setTerminalReason reason
      pure none) (Answered deps.budget.maxModelCallsPerTurn n) fun _ ↦ Failed := by
  intro w hw
  by_cases hs : w.turn.machine.state = .awaitingApproval
  · have hthrows : Triple Stranded (endTurn deps base .budgetExhausted reason) (fun _ _ ↦ False)
        fun _ ↦ Failed := by
      rw [endTurn]
      refine .bind (s := fun terminal w ↦ terminal = false ∧ Stranded w)
        (fun w hw ↦ ⟨?_, hw⟩) fun terminal ↦ .assuming ?_
      · rw [TurnMachine.isTerminal, hw.state]
        rfl
      · rintro rfl
        refine .bind (s := fun _ _ ↦ False) ?_ fun _ _ h ↦ h.elim
        rw [Effect.when, if_pos rfl]
        refine Triple.conseq (illegal_rule (p := Stranded) (q := fun _ _ ↦ False) fun w hw ↦ ?_)
          (fun _ h ↦ h) (fun _ _ h ↦ h) fun _ _ h ↦ Failed.stranded h
        have hillegal : canTransition w.turn.machine.state .budgetExhausted = false := by
          rw [hw.state]
          rfl
        obtain ⟨e, he⟩ := TurnMachine.transition_eq_error hillegal
        exact ⟨e, by rw [TurnMachine.terminate, he]; rfl⟩
    have hrest : Triple (At n [.awaitingApproval]) (do
        note (.budgetStop reason)
        endTurn deps base .budgetExhausted reason
        setTerminalReason reason
        pure none) (Answered deps.budget.maxModelCallsPerTurn n) fun _ ↦ Failed := by
      have hmark : ∀ env, Answers deps env (.budgetStop reason) env := fun _ ↦ rfl
      refine .bind (s := fun _ ↦ Stranded) (note_rule hmark fun h ha ↦ ?_)
        fun _ ↦ .bind hthrows fun _ _ h ↦ h.elim
      exact h.strand ha rfl (List.mem_singleton.mp h.state) rfl
    exact hrest w ⟨List.mem_singleton.mpr hs, hw.unended, hw.recoverable, hw.calls⟩
  · have hrest : Triple (At n [.preparing, .executing]) (do
        note (.budgetStop reason)
        endTurn deps base .budgetExhausted reason
        setTerminalReason reason
        pure none) (Answered deps.budget.maxModelCallsPerTurn n) fun _ ↦ Failed := by
      have hmark : ∀ env, Answers deps env (.budgetStop reason) env := fun _ ↦ rfl
      refine .bind (s := fun _ ↦ At n [.preparing, .executing])
        (note_rule hmark fun {w w'} h ha ↦ h.adds ha rfl ?_) fun _ ↦ ?_
      · have hmem := h.state
        rw [List.mem_cons, List.mem_singleton] at hmem
        exact decide_eq_false (by rcases hmem with h' | h' <;> simp [h'])
      · exact over_after (endTurn_ends hsink rfl (by decide)) fun _ h ↦ h
    refine hrest w ⟨?_, hw.unended, hw.recoverable, hw.calls⟩
    have hmem := hw.state
    simp only [readyStates, List.mem_cons, List.not_mem_nil, or_false] at hmem ⊢
    tauto

theorem modelPhase_answered {ctx : DriveContext} :
    Triple (At n readyStates) (modelPhase deps base ctx)
      (Answered deps.budget.maxModelCallsPerTurn n) fun _ ↦ Failed := by
  rw [modelPhase]
  refine .bind (s := fun _ ↦ At n readyStates)
    (fun w hw ↦ ⟨hw.state, hw.unended, hw.recoverable, hw.calls⟩) fun now ↦ ?_
  refine .bind beforeModelCall_budgeted fun verdict ↦ ?_
  cases verdict with
  | some reason => exact budgetStop_over hsink
  | none =>
    refine .assuming fun hn ↦ ?_
    refine .bind (at_transitionUnless (by decide)) fun _ ↦ .bind (at_persistState hsink) fun _ ↦ ?_
    refine .bind (prepareContext_continues hsink) fun goes ↦ ?_
    cases goes with
    | false => exact .pure fun _ h ↦ h
    | true =>
      refine .bind (at_footprint footprint_requestRound (by decide) (by decide)) fun round ↦ ?_
      by_cases hcalls : round.toolCalls = []
      · rw [hcalls]
        exact over_after (endTurn_ends hsink rfl (by decide)) fun _ h ↦ h
      · rw [if_neg (by simpa using hcalls)]
        refine .bind (.when (fun _ ↦ at_say deps) fun _ _ h ↦ h) fun _ ↦ .bind (at_say deps) fun _ ↦ ?_
        refine .pure fun w h ↦ ⟨hn, ?_⟩
        rw [StartsLoop, if_neg hcalls]
        exact h.mono (by decide)

/-- The fuel of the loop never runs out: every round counts a call of the model. -/
theorem driveLoop_over (ctx : DriveContext) (fuel : ℕ) (calls : List NormalizedToolCall)
    (hn : n ≤ deps.budget.maxModelCallsPerTurn)
    (hfuel : deps.budget.maxModelCallsPerTurn + 1 ≤ fuel + n) :
    Triple (StartsLoop n calls) (driveLoop deps base ctx fuel calls) (fun _ ↦ Over)
      fun _ ↦ Failed := by
  induction fuel generalizing n calls with
  | zero => omega
  | succ fuel ih =>
    rw [driveLoop]
    refine .bind at_signal fun aborted ↦ ?_
    cases aborted with
    | true =>
      refine .bind (s := fun _ ↦ Over) (Triple.conseq (cancel_ends (r := fun _ ↦ Failed) hsink ?_)
        (fun _ h ↦ h) (fun _ _ h ↦ .ended _ h) fun _ _ h ↦ h) fun _ ↦ over_setTerminalReason
      split <;> decide
    | false =>
      refine .bind (toolPhase_continues hsink calls) fun goes ↦ ?_
      cases goes with
      | false => exact .pure fun _ h ↦ h
      | true =>
        refine .bind (modelPhase_answered hsink) fun next ↦ ?_
        cases next with
        | some calls => exact .assuming fun hlt ↦ ih calls hlt (by omega)
        | none => exact .pure fun _ h ↦ h

/-! ## The turn -/

/-- Where the signal leaves a turn in which something was thrown. -/
def Caught : Bool → World σ → Prop
  | true => fun w ↦ ∃ n, At n loopStates w
  | false => fun w ↦ (∃ n, At n [.modelStreaming, .executing] w) ∨
      w.turn.machine.state = .awaitingApproval ∧ Lost w

omit hsink in
theorem signal_caught : Triple Failed (signalAborted deps) Caught r := by
  refine signal_rule fun aborted hw ha ↦ ?_
  rcases hw with ⟨n, h⟩ | ⟨hstate, hunended, records, e, htrace, hstrands, hrec⟩
  · have hat : At n [.modelStreaming, .executing] _ := h.adds ha rfl rfl
    cases aborted with
    | true => exact ⟨n, hat.mono (by decide)⟩
    | false => exact .inl ⟨n, hat⟩
  · cases aborted with
    | true =>
      refine ⟨_, ha.machine ▸ hstate ▸ (by decide), ?_, ?_, rfl⟩
      · rw [ha.obs, ends_append (by simp [Obs.ended]), hunended]
      · rw [ha.trace, htrace]
        exact hrec.caught rfl
    | false =>
      refine .inr ⟨ha.machine ▸ hstate, ?_⟩
      rw [Lost, ha.trace, htrace, List.append_assoc]
      exact not_recoverable hstrands (by simp)

/-- The handler ends the turn, unless it is stranded and not aborted. -/
theorem driveCatch_over {e : Thrown} :
    Triple Failed (driveCatch deps base e) (fun _ ↦ Over) fun _ ↦ Lost := by
  rw [driveCatch]
  refine .bind signal_caught fun aborted ↦ ?_
  cases aborted with
  | true =>
    refine .forExists fun n ↦ .bind (at_isTerminal (by decide)) fun terminal ↦ .assuming ?_
    rintro rfl
    refine .bind (s := fun _ ↦ Over) ?_ fun _ ↦ over_setTerminalReason
    exact Triple.conseq (cancel_ends (r := fun _ ↦ Lost) hsink (by decide)) (fun _ h ↦ h)
      (fun _ _ h ↦ .ended _ h) fun _ _ h ↦ h
  | false =>
    refine .or (.forExists fun n ↦ ?_) ?_
    · refine .bind (at_isTerminal (by decide)) fun terminal ↦ .assuming ?_
      rintro rfl
      have hfail : Triple (At n [.modelStreaming, .executing]) (failTurn (σ := σ))
          (fun _ ↦ At n [.failed]) fun _ ↦ Lost :=
        .bind (at_transition (by decide)) fun _ ↦ at_terminate (by decide)
      refine .bind hfail fun _ ↦ .bind (at_modifyTurn (fun _ ↦ rfl) fun _ ↦ rfl) fun _ ↦ ?_
      refine .bind (at_persist hsink (by rintro ⟨⟩)) fun _ ↦ .bind (persist_turnEnded hsink rfl) fun _ ↦ ?_
      exact Triple.conseq (ended_fireStop (r := fun _ ↦ Lost)) (fun _ h ↦ h)
        (fun _ _ h ↦ .ended _ h) fun _ _ h ↦ h
    · have hlost : Triple (fun w : World σ ↦ w.turn.machine.state = .awaitingApproval ∧ Lost w)
          (failTurn (σ := σ)) (fun _ _ ↦ False) fun _ ↦ Lost := by
        refine .bind (s := fun _ _ ↦ False) ?_ fun _ _ h ↦ h.elim
        refine Triple.conseq (illegal_rule (q := fun _ _ ↦ False) fun w hw ↦ ?_) (fun _ h ↦ h)
          (fun _ _ h ↦ h) fun _ _ h ↦ And.right h
        exact TurnMachine.transition_eq_error (by rw [hw.1]; rfl)
      refine .bind (s := fun terminal w ↦ terminal = false ∧
        w.turn.machine.state = .awaitingApproval ∧ Lost w) (fun w hw ↦ ⟨?_, hw⟩) fun terminal ↦ .assuming ?_
      · rw [TurnMachine.isTerminal, hw.1]
        rfl
      · rintro rfl
        exact .bind hlost fun _ _ h ↦ h.elim

/-- How a turn is left. -/
structure LeftWell (result : TurnResult) (w : World σ) : Prop where
  isOver : Over w
  state : result.state = w.turn.machine.state
  pending : result.pendingApproval = w.turn.pendingApproval

theorem drive_left (ctx : DriveContext) (calls : List NormalizedToolCall) :
    Triple (StartsLoop 0 calls) (drive deps base ctx calls) LeftWell fun _ ↦ Lost := by
  refine .bind (.tryCatch (driveLoop_over hsink ctx _ calls (Nat.zero_le _) le_rfl) fun e ↦
    driveCatch_over hsink) fun _ ↦ ?_
  exact fun w hw ↦ ⟨hw, rfl, rfl⟩

omit hsink in
/-- A throw while the turn is preparing loses it: nothing of the engine catches it. -/
theorem drainNotifications_at :
    Triple (At n [.preparing]) (drainNotifications deps) (fun _ ↦ At n [.preparing])
      fun _ ↦ Lost := by
  rw [drainNotifications]
  cases hdrain : deps.notifications with
  | none => exact .pure fun _ h ↦ h
  | some drain =>
    refine .bind (s := fun _ ↦ At n [.preparing])
      (fun w hw ↦ ⟨hw.state, hw.unended, hw.recoverable, hw.calls⟩) fun drained ↦ ?_
    refine .bind (at_say deps) fun _ ↦ .when (fun _ ↦ ?_) fun _ _ h ↦ h
    rw [fireLifecycle]
    cases hfire : deps.hooks.bind TurnHooks.fireLifecycle with
    | none => exact .pure fun _ h ↦ h
    | some fire =>
      refine ask_rule (fun _ ↦ ⟨fire, hfire, rfl⟩) (fun _ h ha ↦ h.quiet ha rfl rfl)
        fun {w w'} e h ha ↦ ?_
      rw [Lost, ha.trace]
      refine not_recoverable ?_ (by simp)
      rw [List.mem_singleton.mp h.state]
      rfl

theorem enter_left (input : TurnInput) :
    Triple (fun w ↦ w.trace = []) (enter deps input) LeftWell fun _ ↦ Lost := by
  have hnew : ∀ state now conversation, Triple (fun w : World σ ↦ w.trace = [])
      (modifyTurn fun _ ↦ newTurn state now conversation) (fun _ ↦ At 0 [state])
      fun _ ↦ Lost := by
    intro state now conversation w hw
    refine ⟨List.mem_singleton_self _, ?_, ?_, rfl⟩
    · rw [World.obs, hw]
      rfl
    · change Recoverable w.trace
      rw [hw]
      exact recoverable_of_quiet (by simp)
  cases input with
  | run input =>
    refine .bind (s := fun _ (w : World σ) ↦ w.trace = []) (fun _ h ↦ h) fun now ↦ ?_
    refine .bind (s := fun _ (w : World σ) ↦ w.trace = []) (fun _ h ↦ h) fun turnId ↦ ?_
    refine .bind (hnew _ _ _) fun _ ↦ .bind (at_persist hsink (by rintro ⟨⟩)) fun _ ↦ ?_
    refine .bind (at_say deps) fun _ ↦ .bind drainNotifications_at fun _ ↦ ?_
    exact (drive_left hsink _ []).conseq (fun _ h ↦ h.mono (by decide)) (fun _ _ h ↦ h)
      fun _ _ h ↦ h
  | resume input =>
    refine .bind (s := fun _ (w : World σ) ↦ w.trace = []) (fun _ h ↦ h) fun now ↦ .bind (hnew _ _ _) fun _ ↦ ?_
    refine (drive_left hsink _ _).conseq (fun _ h ↦ h.mono ?_) (fun _ _ h ↦ h) fun _ _ h ↦ h
    split <;> decide

end Calls

theorem LeftWell.endsWell {result : TurnResult} {w : World σ} (h : LeftWell result w) :
    EndsWell (.ok result w) ∧ Recoverable w.trace := by
  obtain ⟨⟨s, hs⟩ | ⟨n, hat, hpending⟩, hstate, hres⟩ := h
  · refine ⟨⟨fun _ ↦ ?_, fun hnone ↦ ?_⟩, hs.recoverable⟩
    · rw [hs.ended, hstate, hs.state]
    · rw [hs.ended] at hnone
      cases hnone
  · have hst : result.state = .awaitingApproval := hstate.trans (List.mem_singleton.mp hat.state)
    refine ⟨⟨fun hterm ↦ ?_, fun _ ↦ ⟨hst, hres ▸ hpending⟩⟩, hat.recoverable⟩
    rw [hst] at hterm
    cases hterm

/-- **When a turn ends as it should.** With a sink that does not throw, a turn returns, ended once
in the state it returns or suspended with its request, exactly when every failure that struck while
it was preparing or awaiting an approval was followed at once by an abort. -/
theorem enter_endsWell_iff (deps : TurnEngineDeps σ)
    (hsink : ∀ input s, (deps.sink.append input s).1 = .ok ()) (input : TurnInput) (env : σ)
    (drawn : ℕ) :
    EndsWell (enter deps input (initial env drawn)) ↔
      Recoverable (after (enter deps input (initial env drawn))).trace := by
  have hleft := enter_left hsink input (initial env drawn) rfl
  cases hr : enter deps input (initial env drawn) with
  | ok result w =>
    rw [hr] at hleft
    exact iff_of_true hleft.endsWell.1 hleft.endsWell.2
  | error e w =>
    rw [hr] at hleft
    exact iff_of_false id hleft

/-- A resumed turn whose one call is allowed and succeeds. -/
theorem endsWell_plain :
    EndsWell (enter plainDeps (plainResume [plainCall "call_1" "read_file"]) (initial () 0)) := by
  have hquiet : ∀ e ∈ (after (enter plainDeps (plainResume [plainCall "call_1" "read_file"])
      (initial () 0))).trace, e.strands = false := by decide +kernel
  rw [enter_endsWell_iff plainDeps (fun _ _ ↦ rfl)]
  exact recoverable_of_quiet hquiet

/-- Policy asks about every call, and the approval channel is broken. -/
def brokenGateDeps : TurnEngineDeps Unit :=
  { plainDeps with
    tools := { plainDeps.tools with
      evaluate := fun _ toolName _ _ ↦
        (.ok ⟨.ask, toolName, toolName, .low, "asked", "default"⟩, ()) }
    approvals := some fun _ _ ↦ (.error (.other "the channel is closed"), ()) }

/-- The gate throws while the turn awaits the approval. The handler has no step to `recovering`
from there, so it throws as well: the turn does not return and no `turn-ended` is appended. -/
theorem not_endsWell_brokenGate :
    (∀ input s, (brokenGateDeps.sink.append input s).1 = .ok ()) ∧
      ¬EndsWell
        (enter brokenGateDeps (plainResume [plainCall "call_1" "write_file"]) (initial () 0)) := by
  have hthrows : returned (enter brokenGateDeps
      (plainResume [plainCall "call_1" "write_file"]) (initial () 0)) = false := by decide
  exact ⟨fun _ _ ↦ rfl, not_endsWell hthrows⟩

end TurnEngine

end QwenHarness
