import QwenHarness.Run.Along
import QwenHarness.Runtime.Ending

/-!
# What the log says of the turn's states

A step of the machine and its event are two acts, and the event is written from the last two
entries of the machine's own history. So the log could miss a step, or tell one twice. It does
neither as long as the turn goes on: every step is told before the next one is taken. Once a step
is not told, because the append failed or because the turn ends by it, none is told any more. What
was told is then the beginning of the path the machine took.
-/

namespace QwenHarness

open EventStore (AppendInput)
open Effect

/-! ## What the records say -/

/-- The transition a record says was persisted. -/
def Obs.change : Obs → Option (TurnState × TurnState)
  | .append input (.ok ()) =>
    match input.payload with
    | .turnStateChanged source target => some (source, target)
    | _ => none
  | _ => none

/-- The transitions that were persisted. -/
def changes (obs : List Obs) : List (TurnState × TurnState) := obs.filterMap Obs.change

/-- The state a record says the machine moved to. -/
def Obs.target : Obs → Option TurnState
  | .moved target => some target
  | _ => none

/-- The states the machine moved to. -/
def moves (obs : List Obs) : List TurnState := obs.filterMap Obs.target

/-- The table has this transition. -/
def Legal (source target : TurnState) : Prop := canTransition source target = true

/-- Some transitions of the table lead from the one state to the other. -/
def Reaches : TurnState → TurnState → Prop := Relation.ReflTransGen Legal

/-- Where the machine is when a turn is entered. -/
def TurnInput.restoredState : TurnInput → TurnState
  | .run _ => .preparing
  | .resume _ => .awaitingApproval

/-- What was persisted is this path: it starts where the turn was entered, keeps to the table, and
tells the first steps of the machine, each of them once and none twice in a row. Where the turn
ended, and where it was left, is reached from the end of the path. -/
structure Tells (start : TurnState) (path : List TurnState) (result : TurnResult)
    (obs : List Obs) : Prop where
  steps : changes obs = Path.steps start path
  legal : List.IsChain Legal (start :: path)
  once : path <+: moves obs
  apart : List.IsChain (· ≠ ·) (changes obs)
  ended : ∀ s ∈ ends obs, Reaches (path.getLastD start) s
  left : Reaches (path.getLastD start) result.state

/-! ## Records that say nothing of states -/

section Records

variable {o : Obs} {obs seg : List Obs}

/-- The kinds of records that say something of states. -/
def stateKinds : List Kind := [.moved, .stateChanged, .turnEnded]

theorem change_eq_none (h : o.kind ≠ .stateChanged) : o.change = none := by
  rw [Obs.change.eq_def]
  split
  · rename_i input
    split
    · rename_i source target hp
      exact absurd (congrArg EventPayload.kind hp) h
    · rfl
  · rfl

theorem target_eq_none (h : o.kind ≠ .moved) : o.target = none := by
  rw [Obs.target.eq_def]
  split
  · exact absurd rfl h
  · rfl

theorem changes_append (h : ∀ o ∈ seg, o.kind ≠ .stateChanged) :
    changes (obs ++ seg) = changes obs := by
  rw [changes, List.filterMap_append,
    List.filterMap_eq_nil_iff.mpr fun o ho ↦ change_eq_none (h o ho), List.append_nil, changes]

theorem moves_append (h : ∀ o ∈ seg, o.kind ≠ .moved) : moves (obs ++ seg) = moves obs := by
  rw [moves, List.filterMap_append,
    List.filterMap_eq_nil_iff.mpr fun o ho ↦ target_eq_none (h o ho), List.append_nil, moves]

end Records

/-! ## The machine and its path -/

section Standing

variable {σ α : Type} {deps : TurnEngineDeps σ} {start target : TurnState} {S S' : List TurnState}
  {w w' : World σ} {o : Obs} {ks : List Kind} {path : List TurnState}

/-- The machine's history is the path of its recorded moves, and it is legal. -/
structure Machined (start : TurnState) (w : World σ) : Prop where
  history : w.turn.machine.history = start :: moves w.obs
  state : w.turn.machine.state = (moves w.obs).getLastD start
  legal : List.IsChain Legal (start :: moves w.obs)

/-- This path was persisted. All of its places are ones from which a turn goes on. -/
structure Told (start : TurnState) (path : List TurnState) (w : World σ) : Prop
    extends Machined start w where
  steps : changes w.obs = Path.steps start path
  apart : List.IsChain (· ≠ ·) (start :: path)
  live : isTerminalTurnState (path.getLastD start) = false

/-- Every step of the machine was told. The turn has not ended and is in one of these states. -/
structure UpToDate (start : TurnState) (S : List TurnState) (w : World σ) : Prop
    extends Told start (moves w.obs) w where
  unended : ends w.obs = []
  state_mem : w.turn.machine.state ∈ S

/-- The last step of the machine was not told yet. It led here from one of these states. -/
structure Due (start target : TurnState) (path : List TurnState) (w : World σ) : Prop
    extends Told start path w where
  due : moves w.obs = path ++ [target]
  unended : ends w.obs = []

/-- The first steps of the machine were told, and the turn ended, if it did, in a state that is
reached from there. -/
structure Trailing (start : TurnState) (path : List TurnState) (w : World σ) : Prop
    extends Told start path w where
  once : path <+: moves w.obs
  ended : ∀ s ∈ ends w.obs, Reaches (path.getLastD start) s

/-- Nothing is told of the states any more. -/
def LeftBehind (start : TurnState) (w : World σ) : Prop := ∃ path, Trailing start path w

theorem UpToDate.mono (h : UpToDate start S w) (hS : S ⊆ S') : UpToDate start S' w :=
  ⟨h.toTold, h.unended, hS h.state_mem⟩

theorem UpToDate.trailing (h : UpToDate start S w) : LeftBehind start w :=
  ⟨_, h.toTold, List.prefix_rfl, fun s hs ↦ by rw [h.unended] at hs; cases hs⟩

theorem Due.trailing (h : Due start target path w) : LeftBehind start w :=
  ⟨path, h.toTold, h.due ▸ List.prefix_append _ _, fun s hs ↦ by rw [h.unended] at hs; cases hs⟩

/-- The machine is on a path from the end of what was told. -/
theorem Trailing.reaches (h : Trailing start path w) :
    Reaches (path.getLastD start) w.turn.machine.state := by
  obtain ⟨rest, hrest⟩ := h.once
  rw [h.state, ← hrest]
  exact Path.reaches_end (hrest ▸ h.legal)

/-- From a state that is not terminal a turn can fail. -/
theorem reaches_failed {s : TurnState} (h : isTerminalTurnState s = false) : Reaches s .failed := by
  refine .single ?_
  rw [Legal]
  revert h
  cases s <;> decide

/-! ### Records that say nothing -/

/-- The records of these kinds say nothing of states. -/
def Silent (ks : List Kind) : Prop := ∀ k ∈ stateKinds, k ∉ ks

instance : Decidable (Silent ks) := inferInstanceAs (Decidable (∀ k ∈ stateKinds, k ∉ ks))

theorem Silent.obs (h : Silent ks) (hl : Leaves deps ks w w') :
    moves w'.obs = moves w.obs ∧ changes w'.obs = changes w.obs ∧ ends w'.obs = ends w.obs := by
  obtain ⟨seg, hobs, hkinds⟩ := hl.obs
  have hne : ∀ k ∈ stateKinds, ∀ o ∈ seg, o.kind ≠ k := fun k hk o ho heq ↦
    h k hk (heq ▸ hkinds o ho)
  rw [hobs]
  refine ⟨moves_append (hne _ (by decide)), changes_append (hne _ (by decide)), ?_⟩
  exact ends_append fun o ho ↦ ended_eq_none (hne _ (by decide) o ho)

theorem Told.same (h : Told start path w) (hmachine : w'.turn.machine = w.turn.machine)
    (hmoves : moves w'.obs = moves w.obs) (hchanges : changes w'.obs = changes w.obs) :
    Told start path w' := by
  refine ⟨⟨?_, ?_, ?_⟩, hchanges.trans h.steps, h.apart, h.live⟩
  · rw [hmachine, hmoves, h.history]
  · rw [hmachine, hmoves, h.state]
  · rw [hmoves]
    exact h.legal

theorem Trailing.same (h : Trailing start path w) (hmachine : w'.turn.machine = w.turn.machine)
    (hmoves : moves w'.obs = moves w.obs) (hchanges : changes w'.obs = changes w.obs)
    (hends : ends w'.obs = ends w.obs) : Trailing start path w' :=
  ⟨h.toTold.same hmachine hmoves hchanges, by rw [hmoves]; exact h.once,
    by rw [hends]; exact h.ended⟩

theorem Told.leaves (h : Told start path w) (hs : Silent ks) (hl : Leaves deps ks w w') :
    Told start path w' :=
  h.same (hl.machine (hs _ (by decide))) (hs.obs hl).1 (hs.obs hl).2.1

theorem UpToDate.leaves (h : UpToDate start S w) (hs : Silent ks) (hl : Leaves deps ks w w') :
    UpToDate start S w' := by
  obtain ⟨hmoves, -, hends⟩ := hs.obs hl
  refine ⟨?_, by rw [hends, h.unended], by rw [hl.machine (hs _ (by decide))]; exact h.state_mem⟩
  rw [hmoves]
  exact h.toTold.leaves hs hl

theorem LeftBehind.leaves (h : LeftBehind start w) (hs : Silent ks) (hl : Leaves deps ks w w') :
    LeftBehind start w' := by
  obtain ⟨path, h⟩ := h
  obtain ⟨hmoves, hchanges, hends⟩ := hs.obs hl
  exact ⟨path, h.same (hl.machine (hs _ (by decide))) hmoves hchanges hends⟩

theorem upToDate_footprint {d : TurnEngineDeps σ} {s : List Kind} {m : Engine σ α}
    (hm : Footprint d s m) (hs : Silent s) :
    Triple (UpToDate start S) m (fun _ ↦ UpToDate start S) fun _ ↦ LeftBehind start :=
  (hm.keeps fun hl h ↦ UpToDate.leaves h hs hl).conseq (fun _ h ↦ h) (fun _ _ h ↦ h)
    fun _ _ h ↦ h.trailing

theorem leftBehind_footprint {m : Engine σ α} (hm : Footprint deps ks m) (hs : Silent ks) :
    Triple (LeftBehind start) m (fun _ ↦ LeftBehind start) fun _ ↦ LeftBehind start :=
  hm.keeps fun hl h ↦ LeftBehind.leaves h hs hl

/-! ### Steps of the machine -/

/-- What a step of the machine to this state does. -/
def StepsTo (target : TurnState) (f : TurnMachine → Except Thrown TurnMachine) : Prop :=
  ∀ {m m' : TurnMachine}, f m = .ok m' →
    Legal m.state target ∧ m'.state = target ∧ m'.history = m.history ++ [target]

theorem stepsTo_transition : StepsTo target fun m ↦ m.transition target := by
  intro m m' h
  obtain ⟨hlegal, rfl⟩ := TurnMachine.transition_eq_ok_iff.mp h
  exact ⟨hlegal, rfl, rfl⟩

theorem stepsTo_terminate {reason : TerminationReason} :
    StepsTo target fun m ↦ m.terminate target reason := by
  intro m m' h
  simp only [TurnMachine.terminate] at h
  cases ht : m.transition target with
  | error e => rw [ht] at h; cases h
  | ok moved =>
    rw [ht] at h
    cases h
    exact @stepsTo_transition target m moved ht

variable {f : TurnMachine → Except Thrown TurnMachine} {p : World σ → Prop}
  {q : World σ → Prop} {r : Thrown → World σ → Prop}

/-- **The rule of a step.** A legal step makes the path of the machine longer by one; an illegal
one throws and nothing happens. -/
theorem step_rule (hf : StepsTo target f) (hp : ∀ {w}, p w → Machined start w)
    (hok : ∀ {w w'}, p w → Machined start w' → moves w'.obs = moves w.obs ++ [target] →
      changes w'.obs = changes w.obs → ends w'.obs = ends w.obs →
      w'.turn.machine.state = target → q w')
    (herror : ∀ {w} e, p w → r e w) : Triple p (moveMachine f) (fun _ ↦ q) r := by
  intro w hw
  rw [moveMachine]
  cases hm : f w.turn.machine with
  | error e => exact herror e hw
  | ok machine =>
    obtain ⟨hlegal, hstate, hhistory⟩ := hf hm
    have hmoves : moves (w.record (.moved machine.state)).obs = moves w.obs ++ [target] := by
      rw [World.obs_record, moves, List.filterMap_append, hstate]
      rfl
    have hchanges : changes (w.record (.moved machine.state)).obs = changes w.obs := by
      rw [World.obs_record]
      exact changes_append fun o ho ↦ by rw [List.mem_singleton.mp ho]; rintro ⟨⟩
    have hends : ends (w.record (.moved machine.state)).obs = ends w.obs := by
      rw [World.obs_record]
      exact ends_append fun o ho ↦ by rw [List.mem_singleton.mp ho]; rfl
    obtain ⟨hpast, hhere, hpath⟩ := hp hw
    refine hok hw ⟨?_, ?_, ?_⟩ hmoves hchanges hends hstate
    · exact (hhistory.trans (congrArg (· ++ [target]) hpast)).trans (hmoves ▸ rfl)
    · exact hstate.trans (hmoves ▸ (List.getLastD_concat).symm)
    · exact (congrArg (fun path ↦ List.IsChain Legal (start :: path)) hmoves).mpr
        (Path.isChain_concat.mpr ⟨hpath, hhere ▸ hlegal⟩)

/-- The machine moves on while all is told. -/
theorem upToDate_move (hf : StepsTo target f) :
    Triple (UpToDate (σ := σ) start S) (moveMachine f)
      (fun _ w ↦ ∃ path, path.getLastD start ∈ S ∧ Due start target path w)
      fun _ ↦ LeftBehind start := by
  refine step_rule hf (fun h ↦ h.toMachined) (fun {w w'} h hm hmoves hchanges hends _ ↦ ?_)
    fun _ h ↦ h.trailing
  refine ⟨_, h.state ▸ h.state_mem, ⟨hm, ?_, h.apart, h.live⟩, hmoves, hends.trans h.unended⟩
  exact hchanges.trans h.steps

/-- The machine moves on while nothing is told any more. -/
theorem leftBehind_move (hf : StepsTo target f) :
    Triple (LeftBehind (σ := σ) start) (moveMachine f)
      (fun _ w ↦ LeftBehind start w ∧ w.turn.machine.state = target)
      fun _ ↦ LeftBehind start := by
  refine step_rule hf (fun ⟨_, h⟩ ↦ h.toMachined) ?_ fun _ h ↦ h
  rintro w w' ⟨path, h⟩ hm hmoves hchanges hends hstate
  refine ⟨⟨path, ⟨hm, hchanges.trans h.steps, h.apart, h.live⟩, ?_, ?_⟩, hstate⟩
  · rw [hmoves]
    exact h.once.trans (List.prefix_append _ _)
  · rw [hends]
    exact h.ended

end Standing

namespace TurnEngine

variable {σ α : Type} {deps : TurnEngineDeps σ} {base : PersistBase} {start s target : TurnState}
  {S : List TurnState} {path : List TurnState} {call : NormalizedToolCall}

/-! ## Telling a step -/

theorem getElem?_path (path : List TurnState) :
    (start :: (path ++ [target]))[path.length]? = some (path.getLastD start) := by
  induction path generalizing start with
  | nil => rfl
  | cons s path ih =>
    rw [List.cons_append, List.length_cons, List.getElem?_cons_succ, ih, List.getLastD_cons]

theorem persistState_eq {w : World σ} (h : Due start target path w)
    (hne : path.getLastD start ≠ target) :
    persistState deps base w =
      persist deps base (.turnStateChanged (path.getLastD start) target) none w := by
  have hstate : w.turn.machine.state = target := by
    rw [h.state, h.due, List.getLastD_concat]
  have hlen : (start :: (path ++ [target])).length = path.length + 2 := by
    rw [List.length_cons, List.length_append, List.length_singleton]
  simp only [persistState, h.history, h.due, hstate, hlen, Nat.add_sub_cancel, getElem?_path]
  exact if_pos ⟨Nat.le_add_left 2 _, hne⟩

/-- **The step that is due is told.** -/
theorem persistState_told (hlive : isTerminalTurnState target = false) (hne : target ∉ S) :
    Triple (fun w ↦ ∃ path, path.getLastD start ∈ S ∧ Due start target path w)
      (persistState deps base) (fun _ ↦ UpToDate start [target])
      fun _ ↦ LeftBehind start := by
  refine .forExists fun path ↦ .assuming fun hS ↦ ?_
  have hne' : path.getLastD start ≠ target := fun heq ↦ hne (heq ▸ hS)
  suffices hpersist : Triple (Due start target path)
      (persist deps base (.turnStateChanged (path.getLastD start) target))
      (fun _ ↦ UpToDate start [target]) fun _ ↦ LeftBehind start by
    intro w hw
    rw [persistState_eq hw hne']
    exact hpersist w hw
  refine ask_rule (fun _ ↦ rfl) (fun {w w'} _ h ha ↦ ?_) fun {w w'} e h ha ↦ ?_
  · have hmoves : moves w'.obs = path ++ [target] := by
      rw [ha.obs, moves_append (by simp [Obs.kind, EventPayload.kind]), h.due]
    have hmachined : Machined start w' := by
      refine ⟨?_, ?_, ?_⟩
      · rw [ha.machine, hmoves, h.history, h.due]
      · rw [ha.machine, hmoves, h.state, h.due]
      · rw [hmoves, ← h.due]
        exact h.legal
    refine ⟨⟨hmachined, ?_, ?_, ?_⟩, ?_, ?_⟩
    · rw [hmoves, Path.steps_concat, ← h.steps, ha.obs, changes, List.filterMap_append]
      rfl
    · rw [hmoves]
      exact Path.isChain_concat.mpr ⟨h.apart, hne'⟩
    · rw [hmoves, List.getLastD_concat]
      exact hlive
    · rw [ha.obs, ends_append (by simp [Obs.ended]), h.unended]
    · rw [ha.machine, h.state, h.due, List.getLastD_concat]
      exact List.mem_singleton_self _
  · obtain ⟨told, htrailing⟩ := h.trailing
    refine ⟨told, htrailing.same ha.machine ?_ ?_ ?_⟩ <;> rw [ha.obs]
    · exact moves_append (by simp [Obs.kind, EventPayload.kind])
    · rw [changes, List.filterMap_append]
      exact List.append_nil _
    · exact ends_append (by simp [Obs.ended])

theorem upToDate_transitionUnless (hne : target ∉ S) :
    Triple (UpToDate start S) (transitionUnless (σ := σ) target)
      (fun _ w ↦ ∃ path, path.getLastD start ∈ S ∧ Due start target path w)
      fun _ ↦ LeftBehind start := by
  intro w hw
  have hstate : w.turn.machine.state ≠ target := fun heq ↦ hne (heq ▸ hw.state_mem)
  rw [transitionUnless, if_neg hstate]
  exact upToDate_move stepsTo_transition w hw

/-! ## Ending -/

/-- A turn may be said to have ended in any state that is reached from what was told. -/
theorem leftBehind_turnEnded {reason : TerminationReason} {p : World σ → Prop}
    (hp : ∀ {w}, p w → ∃ path, Trailing start path w ∧ Reaches (path.getLastD start) s) :
    Triple p (persist deps base (.turnEnded s reason)) (fun _ ↦ LeftBehind start)
      fun _ ↦ LeftBehind start := by
  have hsame : ∀ {w w' : World σ} {input answer}, input.payload = .turnEnded s reason →
      Adds deps (.append input answer) w w' →
      moves w'.obs = moves w.obs ∧ changes w'.obs = changes w.obs := by
    intro w w' input answer hpayload ha
    rw [ha.obs]
    refine ⟨moves_append ?_, changes_append ?_⟩ <;> simp [Obs.kind, hpayload, EventPayload.kind]
  refine ask_rule (fun _ ↦ rfl) (fun {w w'} _ h ha ↦ ?_) fun {w w'} e h ha ↦ ?_
  all_goals
    obtain ⟨path, h, hreach⟩ := hp h
    obtain ⟨hmoves, hchanges⟩ := hsame rfl ha
  · refine ⟨path, h.toTold.same ha.machine hmoves hchanges, by rw [hmoves]; exact h.once, ?_⟩
    have hends : ends w'.obs = ends w.obs ++ [s] := by
      rw [ha.obs, ends, List.filterMap_append]
      rfl
    rw [hends]
    intro t ht
    rcases List.mem_append.mp ht with ht | ht
    · exact h.ended t ht
    · exact List.mem_singleton.mp ht ▸ hreach
  · refine ⟨path, h.same ha.machine hmoves hchanges ?_⟩
    rw [ha.obs]
    exact ends_append (by simp [Obs.ended])

/-- An event before the end leaves the machine where it is. -/
theorem leftBehind_persist {payload : EventPayload} (hs : Silent [payload.kind]) :
    Triple (fun w ↦ LeftBehind start w ∧ w.turn.machine.state = s) (persist deps base payload)
      (fun _ w ↦ LeftBehind start w ∧ w.turn.machine.state = s) fun _ ↦ LeftBehind start := by
  have hkeeps : Keeps (fun w ↦ LeftBehind start w ∧ w.turn.machine.state = s)
      (persist deps base payload) :=
    (footprint_persist payload.kind rfl (List.mem_singleton_self _)).keeps fun hl h ↦
      ⟨h.1.leaves hs hl, (congrArg TurnMachine.state (hl.machine (hs _ (by decide)))).trans h.2⟩
  exact hkeeps.conseq (fun _ h ↦ h) (fun _ _ h ↦ h) fun _ _ h ↦ h.1

theorem leftBehind_fireStop {state : TurnState} {reason : TerminationReason} :
    Triple (LeftBehind start) (fireStop deps state reason) (fun _ ↦ LeftBehind start)
      fun _ ↦ LeftBehind start :=
  leftBehind_footprint (footprint_fireStop (List.mem_singleton_self _)) (by decide)

theorem leftBehind_cancel :
    Triple (LeftBehind start) (cancel deps base) (fun _ ↦ LeftBehind start)
      fun _ ↦ LeftBehind start := by
  rw [cancel]
  refine .bind (s := fun _ ↦ LeftBehind start) (fun _ h ↦ h) fun terminal ↦ ?_
  split
  · exact .pure fun _ h ↦ h
  · refine .bind (leftBehind_move stepsTo_terminate) fun _ ↦ ?_
    refine .bind (leftBehind_persist (by decide)) fun _ ↦ ?_
    refine .bind (leftBehind_turnEnded ?_) fun _ ↦ leftBehind_fireStop
    rintro w ⟨⟨path, h⟩, hs⟩
    exact ⟨path, h, hs ▸ h.reaches⟩

/-- A turn that still goes on is ended. -/
theorem upToDate_endTurn {reason : TerminationReason} :
    Triple (UpToDate start S) (endTurn deps base s reason) (fun _ ↦ LeftBehind start)
      fun _ ↦ LeftBehind start := by
  rw [endTurn]
  refine .bind (s := fun terminal w ↦ terminal = false ∧ UpToDate start S w)
    (fun w h ↦ ⟨?_, h⟩) fun terminal ↦ .assuming ?_
  · exact (congrArg isTerminalTurnState h.state).trans h.live
  · rintro rfl
    refine .bind (s := fun _ w ↦ LeftBehind start w ∧ w.turn.machine.state = s) ?_ fun _ ↦ ?_
    · exact (leftBehind_move stepsTo_terminate).conseq (fun _ h ↦ h.trailing) (fun _ _ h ↦ h)
        fun _ _ h ↦ h
    · refine .bind (leftBehind_turnEnded ?_) fun _ ↦ leftBehind_fireStop
      rintro w ⟨⟨path, h⟩, hs⟩
      exact ⟨path, h, hs ▸ h.reaches⟩

theorem leftBehind_failTurn :
    Triple (LeftBehind start) (failTurn (σ := σ)) (fun _ ↦ LeftBehind start)
      fun _ ↦ LeftBehind start :=
  .bind (leftBehind_move stepsTo_transition) fun _ ↦
    (leftBehind_move stepsTo_terminate).conseq (fun _ h ↦ h.1) (fun _ _ h ↦ h.1) fun _ _ h ↦ h

theorem leftBehind_setTerminalReason {reason : TerminationReason} :
    Triple (LeftBehind start) (setTerminalReason (σ := σ) reason) (fun _ ↦ LeftBehind start)
      fun _ ↦ LeftBehind start :=
  fun _ ⟨path, h⟩ ↦ ⟨path, h.same rfl rfl rfl rfl⟩

/-- **The handler of failures** tells no step any more. -/
theorem leftBehind_driveCatch {e : Thrown} :
    Triple (LeftBehind start) (driveCatch deps base e) (fun _ ↦ LeftBehind start)
      fun _ ↦ LeftBehind start := by
  rw [driveCatch]
  refine .bind (leftBehind_footprint (footprint_signalAborted (List.mem_singleton_self _))
    (by decide)) fun aborted ↦ ?_
  refine .bind (s := fun _ ↦ LeftBehind start) (fun _ h ↦ h) fun terminal ↦ ?_
  split
  · exact .bind (.when (fun _ ↦ leftBehind_cancel) fun _ _ h ↦ h) fun _ ↦
      leftBehind_setTerminalReason
  · refine .bind (.when (fun _ ↦ leftBehind_failTurn) fun _ _ h ↦ h) fun _ ↦ ?_
    refine .bind leftBehind_setTerminalReason fun _ ↦ ?_
    refine .bind (leftBehind_footprint (footprint_persist .request rfl (List.mem_singleton_self _))
      (by decide)) fun _ ↦ ?_
    refine .bind (leftBehind_turnEnded ?_) fun _ ↦ leftBehind_fireStop
    rintro w ⟨path, h⟩
    exact ⟨path, h, reaches_failed h.live⟩

/-! ## The calls of a round -/

/-- Where a phase leaves the turn. -/
def Abreast (start : TurnState) : ToolPhase → World σ → Prop
  | .go => UpToDate start [.executing]
  | _ => UpToDate start loopStates

/-- Where taking a call up leaves the turn. -/
def TakenAbreast (start : TurnState) : Option ToolPhase → World σ → Prop
  | some phase => Abreast start phase
  | none => UpToDate start [.executing]

/-- Where the gates leave the turn. -/
def AdmittedAbreast (start : TurnState) : Admission → World σ → Prop
  | .stop phase => Abreast start phase
  | .refused | .admitted => UpToDate start [.executing]

/-- Whatever the phase is, the turn is where it was. -/
theorem abreast_of_upToDate {w : World σ} (h : UpToDate start [.executing] w)
    (phase : ToolPhase) : Abreast start phase w := by
  cases phase with
  | go => exact h
  | _ => exact h.mono (by decide)

theorem abreast_takeUp :
    Triple (UpToDate start [.executing]) (takeUp deps call) (TakenAbreast start)
      fun _ ↦ LeftBehind start :=
  (upToDate_footprint footprint_takeUp (by decide)).conseq (fun _ h ↦ h) (fun phase _ h ↦ by
    cases phase with
    | none => exact h
    | some phase => exact abreast_of_upToDate h phase) fun _ _ h ↦ h

theorem abreast_afterResults {hookStop : Bool} :
    Triple (UpToDate start [.executing]) (afterResults deps hookStop) (Abreast start)
      fun _ ↦ LeftBehind start :=
  (upToDate_footprint (footprint_afterResults (List.mem_singleton_self _)) (by decide)).conseq
    (fun _ h ↦ h) (fun phase _ h ↦ abreast_of_upToDate h phase) fun _ _ h ↦ h

theorem upToDate_resolveApproval {granted : Bool} {scope : Option ApprovalScope} :
    Triple (UpToDate start [.awaitingApproval]) (resolveApproval deps base call granted scope)
      (fun _ ↦ UpToDate start [.executing]) fun _ ↦ LeftBehind start := by
  rw [resolveApproval]
  refine .bind (upToDate_footprint (footprint_persist .approvalResolved rfl
    (List.mem_singleton_self _)) (by decide)) fun _ ↦ ?_
  exact .bind (upToDate_move stepsTo_transition) fun _ ↦ persistState_told rfl (by decide)

/-- The pause is told, and so is its end. -/
theorem abreast_askApproval {verdict : ToolEvaluation} :
    Triple (UpToDate start [.executing]) (askApproval deps base call verdict)
      (AdmittedAbreast start) fun _ ↦ LeftBehind start := by
  rw [askApproval]
  refine .bind (upToDate_move stepsTo_transition) fun _ ↦ ?_
  refine .bind (persistState_told rfl (by decide)) fun _ ↦ ?_
  refine .bind (upToDate_footprint (footprint_persist .approvalRequested rfl
    (List.mem_singleton_self _)) (by decide)) fun _ ↦ ?_
  refine .bind (upToDate_footprint (footprint_fireLifecycle (List.mem_singleton_self _))
    (by decide)) fun _ ↦ ?_
  refine .bind (upToDate_footprint (footprint_requestApproval (List.mem_singleton_self _))
    (by decide)) fun decision ↦ ?_
  refine .bind (upToDate_footprint (footprint_signalAborted (List.mem_singleton_self _))
    (by decide)) fun aborted ↦ ?_
  split
  · exact .pure fun _ h ↦ h.mono (by decide)
  · cases decision with
    | deferred reason => exact .pure fun _ h ↦ h.mono (by decide)
    | approved scope => exact .bind upToDate_resolveApproval fun _ ↦ .pure fun _ h ↦ h
    | denied reason =>
      refine .bind upToDate_resolveApproval fun _ ↦ ?_
      refine .bind (upToDate_footprint (footprint_recordToolDenial (List.mem_singleton_self _))
        (by decide)) fun _ ↦ ?_
      exact .bind (upToDate_footprint (footprint_sayOutput (d := deps)
        (List.mem_singleton_self _)) (by decide)) fun _ ↦ .pure fun _ h ↦ h

theorem abreast_passGates :
    Triple (UpToDate start [.executing]) (passGates deps base call) (AdmittedAbreast start)
      fun _ ↦ LeftBehind start := by
  rw [passGates]
  refine .bind (upToDate_footprint footprint_preToolUse (by decide)) fun blocked ↦ ?_
  split
  · exact .pure fun _ h ↦ h
  · rw [judge]
    refine .bind (upToDate_footprint (footprint_evaluate (List.mem_singleton_self _))
      (by decide)) fun verdict ↦ ?_
    refine .bind (upToDate_footprint (footprint_persistVerdict (List.mem_singleton_self _))
      (by decide)) fun _ ↦ ?_
    split
    · refine .bind (upToDate_footprint (footprint_recordToolDenial (List.mem_singleton_self _))
        (by decide)) fun _ ↦ ?_
      refine .bind (upToDate_footprint (footprint_fireLifecycle (List.mem_singleton_self _))
        (by decide)) fun _ ↦ ?_
      exact .bind (upToDate_footprint (footprint_sayOutput (d := deps)
        (List.mem_singleton_self _)) (by decide)) fun _ ↦ .pure fun _ h ↦ h
    · exact abreast_askApproval
    · exact .pure fun _ h ↦ h

theorem abreast_runOneCall :
    Triple (UpToDate start [.executing]) (runOneCall deps base call) (Abreast start)
      fun _ ↦ LeftBehind start := by
  rw [runOneCall]
  refine .bind (upToDate_footprint (d := deps) (footprint_note (fun _ ↦ rfl)
    (List.mem_singleton_self Kind.takeUp)) (by decide)) fun _ ↦ ?_
  refine .bind abreast_takeUp fun phase ↦ ?_
  cases phase with
  | some phase => exact .pure fun _ h ↦ h
  | none =>
    refine .bind abreast_passGates fun admission ↦ ?_
    cases admission with
    | stop phase => exact .pure fun _ h ↦ h
    | refused => exact .pure fun _ h ↦ h
    | admitted =>
      refine .bind (upToDate_footprint footprint_beginSideEffect (by decide)) fun begun ↦ ?_
      cases begun with
      | none => exact .pure fun _ h ↦ h
      | some sideEffectId =>
        refine .bind (upToDate_footprint (footprint_execute (List.mem_singleton_self _))
          (by decide)) fun result ↦ ?_
        refine .bind (upToDate_footprint (footprint_settle (List.mem_singleton_self _))
          (by decide)) fun _ ↦ ?_
        refine .bind (upToDate_footprint footprint_recordResult (by decide)) fun stop ↦ ?_
        exact abreast_afterResults

theorem abreast_runParallelBatch (calls : List NormalizedToolCall) :
    Triple (UpToDate start [.executing]) (runParallelBatch deps base calls) (Abreast start)
      fun _ ↦ LeftBehind start := by
  rw [runParallelBatch]
  refine .bind (upToDate_footprint (d := deps) (footprint_note (fun _ ↦ rfl)
    (List.mem_singleton_self Kind.takeUpBatch)) (by decide)) fun _ ↦ ?_
  refine .bind (upToDate_footprint (footprint_evaluateAll calls) (by decide)) fun verdicts ↦ ?_
  split
  · refine .bind (upToDate_footprint (footprint_startBatch _) (by decide)) fun started ↦ ?_
    cases started with
    | error phase => exact .pure fun _ h ↦ abreast_of_upToDate h phase
    | ok cleared =>
      refine .bind (upToDate_footprint (footprint_executeAll cleared) (by decide)) fun results ↦ ?_
      refine .bind (upToDate_footprint (footprint_settleBatch _) (by decide)) fun stop ↦ ?_
      exact abreast_afterResults
  · exact runSerially_rule (q := Abreast start) (fun _ ↦ .rfl) (fun _ ↦ abreast_runOneCall) calls

/-! ## The loop -/

/-- Once the turn is over, only its reason is still set. -/
theorem leftBehind_over {m : Engine σ Unit} {p : World σ → Prop} {q : α → World σ → Prop}
    {reason : TerminationReason} {b : α}
    (hm : Triple p m (fun _ ↦ LeftBehind start) fun _ ↦ LeftBehind start)
    (hq : ∀ w, LeftBehind start w → q b w) :
    Triple p (do m; setTerminalReason reason; pure b) q fun _ ↦ LeftBehind start :=
  .bind hm fun _ ↦ .bind leftBehind_setTerminalReason fun _ ↦ .pure hq

theorem upToDate_cancel :
    Triple (UpToDate start S) (cancel deps base) (fun _ ↦ LeftBehind start)
      fun _ ↦ LeftBehind start :=
  leftBehind_cancel.conseq (fun _ h ↦ h.trailing) (fun _ _ h ↦ h) fun _ _ h ↦ h

theorem continues_concludePhase {phase : ToolPhase} :
    Triple (Abreast start phase) (concludePhase deps base phase)
      (Continues (UpToDate start [.executing]) (LeftBehind start)) fun _ ↦ LeftBehind start := by
  cases phase with
  | budget reason => exact leftBehind_over upToDate_endTurn fun _ h ↦ h
  | cancelled => exact leftBehind_over upToDate_cancel fun _ h ↦ h
  | hookStop => exact leftBehind_over upToDate_endTurn fun _ h ↦ h
  | awaitingApproval pending =>
    refine .bind (upToDate_footprint (d := deps) (s := []) (footprint_modifyTurn (fun _ ↦ rfl)
      (fun _ ↦ rfl) fun _ ↦ rfl) (by decide)) fun _ ↦ .pure fun _ h ↦ h.trailing
  | go =>
    refine .bind (upToDate_footprint (d := deps) (s := []) (footprint_useBudget
      (.inr fun _ ↦ rfl) (.inr fun _ ↦ rfl)) (by decide)) fun verdict ↦ ?_
    cases verdict with
    | some reason =>
      refine .bind (upToDate_footprint (d := deps) (footprint_note (fun _ ↦ rfl)
        (List.mem_singleton_self Kind.budgetStop)) (by decide)) fun _ ↦ ?_
      exact leftBehind_over upToDate_endTurn fun _ h ↦ h
    | none => exact .pure fun _ h ↦ h

/-- The states in which calls are made: the turn was resumed, or the model asked for them. -/
def callingStates : List TurnState := [.awaitingApproval, .modelStreaming]

/-- Where the loop takes calls up. -/
def TakesUp (start : TurnState) (calls : List NormalizedToolCall) : World σ → Prop :=
  UpToDate start (if calls = [] then readyStates else callingStates)

theorem continues_toolPhase (calls : List NormalizedToolCall) :
    Triple (TakesUp start calls) (toolPhase deps base calls)
      (Continues (UpToDate start readyStates) (LeftBehind start)) fun _ ↦ LeftBehind start := by
  rcases calls with - | ⟨call, calls⟩
  · exact .pure fun _ h ↦ h
  rw [toolPhase, List.isEmpty_cons, if_neg Bool.false_ne_true]
  refine .bind (upToDate_transitionUnless (S := callingStates) (by decide)) fun _ ↦ ?_
  refine .bind (persistState_told rfl (by decide)) fun _ ↦ ?_
  rw [runToolCalls, bind_assoc]
  refine .bind (upToDate_footprint (footprint_planBatches (List.mem_singleton_self _))
    (by decide)) fun groups ↦ ?_
  refine .bind (runGroups_rule (q := Abreast start) (fun _ ↦ .rfl) (fun _ ↦ abreast_runOneCall)
    abreast_runParallelBatch _ groups) fun phase ↦ ?_
  have hfire : Triple (Abreast start phase)
      (fireLifecycle deps (.postToolBatch (call :: calls).length)) (fun _ ↦ Abreast start phase)
      fun _ ↦ LeftBehind start := by
    cases phase <;> exact upToDate_footprint (footprint_fireLifecycle (List.mem_singleton_self _))
      (by decide)
  refine .bind hfire fun _ ↦ continues_concludePhase.conseq (fun _ h ↦ h) (fun goes _ h ↦ ?_)
    fun _ _ h ↦ h
  cases goes with
  | true => exact UpToDate.mono h (by decide)
  | false => exact h

theorem continues_prepareContext :
    Triple (UpToDate start [.modelStreaming]) (prepareContext deps base)
      (Continues (UpToDate start [.modelStreaming]) (LeftBehind start))
      fun _ ↦ LeftBehind start := by
  rw [prepareContext]
  cases hprepare : deps.context with
  | none => exact .pure fun _ h ↦ h
  | some prepare =>
    refine .bind (s := fun _ ↦ UpToDate start [.modelStreaming]) (fun _ h ↦ h) fun turn ↦ ?_
    refine .bind (upToDate_footprint (s := [.preparation]) (footprint_ask (fun _ ↦
      ⟨prepare, hprepare, rfl⟩) fun _ ↦ List.mem_of_elem_eq_true rfl) (by decide)) fun prep ↦ ?_
    refine .bind (upToDate_footprint (footprint_signalAborted (List.mem_singleton_self _))
      (by decide)) fun aborted ↦ ?_
    split
    · exact leftBehind_over upToDate_cancel fun _ h ↦ h
    · refine .bind (upToDate_footprint (d := deps) (footprint_adopt
        (List.mem_singleton_self _)) (by decide)) fun _ ↦ ?_
      refine .bind (.when (fun _ ↦ upToDate_footprint (footprint_fireLifecycle
        (List.mem_singleton_self _)) (by decide)) fun _ _ h ↦ h) fun _ ↦ ?_
      exact .pure fun _ h ↦ h

/-- Where the model phase leaves the turn. -/
def NextTold (start : TurnState) : Option (List NormalizedToolCall) → World σ → Prop
  | some calls => TakesUp start calls
  | none => LeftBehind start

theorem nextTold_modelPhase {ctx : DriveContext} :
    Triple (UpToDate start readyStates) (modelPhase deps base ctx) (NextTold start)
      fun _ ↦ LeftBehind start := by
  rw [modelPhase]
  refine .bind (upToDate_footprint (s := []) footprint_now (by decide)) fun now ↦ ?_
  refine .bind (upToDate_footprint (d := deps) (s := [.modelCall])
    (footprint_useBudget (.inl (List.mem_singleton_self _)) (.inr fun b ↦
      b.toolCalls_beforeModelCall)) (by decide)) fun verdict ↦ ?_
  cases verdict with
  | some reason =>
    refine .bind (upToDate_footprint (d := deps) (footprint_note (fun _ ↦ rfl)
      (List.mem_singleton_self Kind.budgetStop)) (by decide)) fun _ ↦ ?_
    exact leftBehind_over upToDate_endTurn fun _ h ↦ h
  | none =>
    refine .bind (upToDate_transitionUnless (by decide)) fun _ ↦ ?_
    refine .bind (persistState_told rfl (by decide)) fun _ ↦ ?_
    refine .bind continues_prepareContext fun goes ↦ ?_
    cases goes with
    | false => exact .pure fun _ h ↦ h
    | true =>
      refine .bind (upToDate_footprint footprint_requestRound (by decide)) fun round ↦ ?_
      by_cases hcalls : round.toolCalls = []
      · rw [hcalls]
        exact leftBehind_over upToDate_endTurn fun _ h ↦ h
      · rw [if_neg (by simpa using hcalls)]
        refine .bind (.when (fun _ ↦ upToDate_footprint (d := deps) (footprint_say
          (List.mem_singleton_self _)) (by decide)) fun _ _ h ↦ h) fun _ ↦ ?_
        refine .bind (upToDate_footprint (d := deps) (footprint_say
          (List.mem_singleton_self _)) (by decide)) fun _ ↦ .pure fun w h ↦ ?_
        rw [NextTold, TakesUp, if_neg hcalls]
        exact h.mono (by decide)

theorem leftBehind_driveLoop (ctx : DriveContext) (fuel : ℕ) (calls : List NormalizedToolCall) :
    Triple (TakesUp start calls) (driveLoop deps base ctx fuel calls)
      (fun _ ↦ LeftBehind start) fun _ ↦ LeftBehind start := by
  induction fuel generalizing calls with
  | zero => exact .pure fun _ h ↦ h.trailing
  | succ fuel ih =>
    rw [driveLoop]
    refine .bind (upToDate_footprint (footprint_signalAborted (List.mem_singleton_self _))
      (by decide)) fun aborted ↦ ?_
    cases aborted with
    | true => exact .bind upToDate_cancel fun _ ↦ leftBehind_setTerminalReason
    | false =>
      refine .bind (continues_toolPhase calls) fun goes ↦ ?_
      cases goes with
      | false => exact .pure fun _ h ↦ h
      | true =>
        refine .bind nextTold_modelPhase fun next ↦ ?_
        cases next with
        | some calls => exact ih calls
        | none => exact .pure fun _ h ↦ h

/-! ## The turn -/

theorem drive_tells (ctx : DriveContext) (calls : List NormalizedToolCall) :
    Triple (TakesUp start calls) (drive deps base ctx calls)
      (fun result w ↦ ∃ path, Tells start path result w.obs) fun _ _ ↦ True := by
  refine .bind (s := fun _ ↦ LeftBehind start) ?_ fun _ ↦ ?_
  · exact (Triple.tryCatch (leftBehind_driveLoop ctx _ calls) fun _ ↦ leftBehind_driveCatch).conseq
      (fun _ h ↦ h) (fun _ _ h ↦ h) fun _ _ _ ↦ trivial
  · rintro w ⟨path, h⟩
    refine ⟨path, h.steps, h.legal.prefix ?_, h.once, ?_, h.ended, h.reaches⟩
    · exact (List.prefix_cons_inj _).mpr h.once
    · rw [h.steps]
      exact Path.isChain_ne_steps h.apart

/-- A turn that begins has nothing to tell. -/
theorem upToDate_newTurn {now : ℤ} {conversation : List ModelInputItem}
    {r : Thrown → World σ → Prop} (hlive : isTerminalTurnState start = false) :
    Triple (fun w : World σ ↦ w.trace = []) (modifyTurn fun _ ↦ newTurn start now conversation)
      (fun _ ↦ UpToDate start [start]) r := by
  intro w hw
  have hobs : w.obs = [] := List.map_eq_nil_iff.mpr hw
  have hmoves : moves w.obs = [] := by rw [hobs]; rfl
  have hmachined : Machined start { w with turn := newTurn start now conversation } :=
    ⟨congrArg (start :: ·) hmoves.symm, congrArg (·.getLastD start) hmoves.symm,
      (congrArg (fun path ↦ List.IsChain Legal (start :: path)) hmoves).mpr (.singleton _)⟩
  have htold : Told start [] { w with turn := newTurn start now conversation } :=
    ⟨hmachined, congrArg changes hobs, .singleton _, hlive⟩
  exact ⟨(congrArg (Told start · _) hmoves).mpr htold, congrArg ends hobs,
    List.mem_singleton_self _⟩

/-- **What the log says of the states.** A turn that returns has persisted a path that starts where
it was entered, keeps to the table, and tells the machine's first steps, none of them twice. The
turn was ended, or is suspended, where that path leads. -/
theorem enter_tells (deps : TurnEngineDeps σ) (input : TurnInput) (env : σ) (drawn : ℕ)
    {result : TurnResult} {w : World σ}
    (h : enter deps input (initial env drawn) = .ok result w) :
    ∃ path, Tells input.restoredState path result w.obs := by
  suffices htells : Triple (fun w : World σ ↦ w.trace = []) (enter deps input)
      (fun result w ↦ ∃ path, Tells input.restoredState path result w.obs)
      fun _ _ ↦ True from htells.ok rfl h
  cases input with
  | run input =>
    refine .bind (s := fun _ (w : World σ) ↦ w.trace = []) (fun _ h ↦ h) fun now ↦ ?_
    refine .bind (s := fun _ (w : World σ) ↦ w.trace = []) (fun _ h ↦ h) fun turnId ↦ ?_
    refine .bind (upToDate_newTurn rfl) fun _ ↦ ?_
    have hquiet : ∀ {β : Type} {s : List Kind} {m : Engine σ β}, Footprint deps s m →
        Silent s → Triple (UpToDate .preparing [.preparing]) m
          (fun _ ↦ UpToDate .preparing [.preparing]) fun _ _ ↦ True := fun hm hs ↦
      (upToDate_footprint hm hs).conseq (fun _ h ↦ h) (fun _ _ h ↦ h) fun _ _ _ ↦ trivial
    refine .bind (hquiet (footprint_persist .turnStarted rfl (List.mem_singleton_self _))
      (by decide)) fun _ ↦ ?_
    refine .bind (hquiet (footprint_say (List.mem_singleton_self _)) (by decide)) fun _ ↦ ?_
    refine .bind (hquiet (s := [.said, .lifecycle]) (footprint_drainNotifications (by decide)
      (by decide)) (by decide)) fun _ ↦ ?_
    exact (drive_tells _ []).conseq (fun _ h ↦ h.mono (by decide)) (fun _ _ h ↦ h) fun _ _ h ↦ h
  | resume input =>
    refine .bind (s := fun _ (w : World σ) ↦ w.trace = []) (fun _ h ↦ h) fun now ↦ ?_
    refine .bind (upToDate_newTurn rfl) fun _ ↦ ?_
    refine (drive_tells _ _).conseq (fun _ h ↦ h.mono ?_) (fun _ _ h ↦ h) fun _ _ h ↦ h
    split <;> decide

/-- A resumed turn whose one call is allowed and succeeds. -/
theorem tells_plain : ∃ result w,
    enter plainDeps (plainResume [plainCall "call_1" "read_file"]) (initial () 0) = .ok result w ∧
      ∃ path, Tells .awaitingApproval path result w.obs := by
  have hreturns : returned (enter plainDeps
      (plainResume [plainCall "call_1" "read_file"]) (initial () 0)) = true := by decide +kernel
  cases hr : enter plainDeps (plainResume [plainCall "call_1" "read_file"]) (initial () 0) with
  | ok result w => exact ⟨result, w, rfl, enter_tells _ _ _ _ hr⟩
  | error e w =>
    rw [hr] at hreturns
    cases hreturns

end TurnEngine

end QwenHarness
