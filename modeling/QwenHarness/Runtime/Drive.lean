import QwenHarness.Runtime.Footprint

/-!
# The rule of the loop

Around the calls of a round the engine does much, but it leaves only records of the outer kinds.
So a statement about a whole turn needs an argument for two functions alone: one call on the serial
path, and one parallel batch. `CallRules` is what to show for these, with two predicates: `Q` holds
while the turn goes on, `R` when it stops, whether by a phase or by a throw.
-/

namespace QwenHarness

open Effect

/-- What a turn is started with. -/
inductive TurnInput where
  | run (input : RunTurnInput)
  | resume (input : ResumeTurnInput)
deriving Repr

namespace TurnEngine

variable {σ : Type}

/-- The two ways into a turn. -/
def enter (deps : TurnEngineDeps σ) : TurnInput → Engine σ TurnResult
  | .run input => run deps input
  | .resume input => resume deps input

/-- Nothing is recorded yet. The turn in memory is only a place for the one to come. -/
def initial (env : σ) (drawn : ℕ) : World σ where
  env := env
  drawn := drawn
  aborted := false
  turn := newTurn .preparing 0 []
  trace := []

/-! ## An outside to run against -/

/-- Identifiers that count up. -/
def tallyIds : IdSource where
  next n _ := String.ofList (List.replicate n 'i')
  fresh _ m n h := by
    have hlist := String.ofList_injective h
    simpa using congrArg List.length hlist

/-- An outside without hooks and channels, where all calls succeed and policy allows everything. -/
def plainDeps : TurnEngineDeps Unit where
  stream _ _ := (.ok [.textDone "" "done", .done .stop], ())
  tools :=
    { evaluate := fun _ toolName _ _ ↦
        (.ok ⟨.allow, toolName, toolName, .low, "allowed", "default"⟩, ())
      execute := fun _ _ ↦ (.ok ⟨true, "ok", none, none, none, false, 0⟩, ())
      intentFor := fun toolName _ _ ↦ (.ok ⟨toolName, false, .other, toolName⟩, ())
      planBatches := none }
  sink := { append := fun _ _ ↦ (.ok (), ()), mayExecute := fun _ _ ↦ ⟨true, ""⟩ }
  ids := tallyIds
  now _ := (0, ())
  sleep _ _ := (.ok (), ())
  aborted _ := (false, ())
  budget := defaultBudget
  rng _ := (0, ())
  retryPolicy := defaultRetryPolicy
  hooks := none
  approvals := none
  context := none
  notifications := none

/-- A call of a tool that takes no arguments. -/
def plainCall (callId toolName : String) : NormalizedToolCall :=
  ⟨callId, callId, toolName, "{}", []⟩

/-- A resumed turn with these calls still to make. -/
def plainResume (pendingCalls : List NormalizedToolCall) : TurnInput :=
  .resume
    { threadId := "thr_000001", turnId := "trn_000001", correlationId := "cor_000001"
      permissionProfile := .ask, model := "qwen", instructions := "", history := []
      pendingCalls, tools := [], actor := ⟨.user, "act_000001", none⟩ }

/-! ## The rule -/

/-- What holds after a phase: `Q` if the turn goes on, `R` if it stops. -/
def Concluded (Q R : World σ → Prop) : ToolPhase → World σ → Prop
  | .go => Q
  | _ => R

/-- The same where the turn answers whether it goes on. -/
def Continues (Q R : World σ → Prop) : Bool → World σ → Prop
  | true => Q
  | false => R

/-- What to show of the calls of a round. -/
structure CallRules (deps : TurnEngineDeps σ) (base : PersistBase) (Q R : World σ → Prop) :
    Prop where
  weaken : ∀ {w}, Q w → R w
  go_outer : ∀ {w w'}, Leaves deps outerKinds w w' → Q w → Q w'
  stop_outer : ∀ {w w'}, Leaves deps outerKinds w w' → R w → R w'
  one : ∀ call, Triple Q (runOneCall deps base call) (Concluded Q R) fun _ ↦ R
  batch : ∀ calls, Triple Q (runParallelBatch deps base calls) (Concluded Q R) fun _ ↦ R

section Rule

variable {deps : TurnEngineDeps σ} {base : PersistBase} {Q R : World σ → Prop}

/-! ### The calls of a round

A predicate on phases says what holds after a call; if the turn goes on, it is what held before. -/

section Phases

variable {p : World σ → Prop} {q : ToolPhase → World σ → Prop} {r : Thrown → World σ → Prop}

/-- The serial path. It is also the fallback of a batch. -/
theorem runSerially_rule (hgo : ∀ w, q .go w ↔ p w)
    (one : ∀ call, Triple p (runOneCall deps base call) q r) (calls : List NormalizedToolCall) :
    Triple p (runSerially deps base calls) q r := by
  induction calls with
  | nil => exact .pure fun w hw ↦ (hgo w).mpr hw
  | cons call calls ih =>
    rw [runSerially]
    refine .bind (one call) fun phase ↦ ?_
    cases phase with
    | go => exact ih.conseq (fun w hw ↦ (hgo w).mp hw) (fun _ _ hw ↦ hw) fun _ _ hw ↦ hw
    | _ => exact .pure fun _ hw ↦ hw

theorem runGroup_rule (hgo : ∀ w, q .go w ↔ p w)
    (one : ∀ call, Triple p (runOneCall deps base call) q r)
    (batch : ∀ calls, Triple p (runParallelBatch deps base calls) q r)
    (calls : List NormalizedToolCall) : Triple p (runGroup deps base calls) q r := by
  rw [runGroup.eq_def]
  split
  · exact .pure fun w hw ↦ (hgo w).mpr hw
  · exact one _
  · exact batch _

theorem runGroups_rule (hgo : ∀ w, q .go w ↔ p w)
    (one : ∀ call, Triple p (runOneCall deps base call) q r)
    (batch : ∀ calls, Triple p (runParallelBatch deps base calls) q r)
    (calls : List NormalizedToolCall) (groups : List (List String)) :
    Triple p (runGroups deps base calls groups) q r := by
  induction groups with
  | nil => exact .pure fun w hw ↦ (hgo w).mpr hw
  | cons group groups ih =>
    rw [runGroups]
    refine .bind (runGroup_rule hgo one batch _) fun phase ↦ ?_
    cases phase with
    | go => exact ih.conseq (fun w hw ↦ (hgo w).mp hw) (fun _ _ hw ↦ hw) fun _ _ hw ↦ hw
    | _ => exact .pure fun _ hw ↦ hw

end Phases

/-! ### The loop -/

namespace CallRules

theorem go (h : CallRules deps base Q R) {α : Type} {m : Engine σ α}
    (hm : Footprint deps outerKinds m) : Triple Q m (fun _ ↦ Q) fun _ ↦ R :=
  (hm.keeps h.go_outer).conseq (fun _ hq ↦ hq) (fun _ _ hq ↦ hq) fun _ _ hq ↦ h.weaken hq

theorem stop (h : CallRules deps base Q R) {α : Type} {m : Engine σ α}
    (hm : Footprint deps outerKinds m) : Triple R m (fun _ ↦ R) fun _ ↦ R :=
  hm.keeps h.stop_outer

/-- Once the calls of a round have stopped the turn, it does not go on. -/
theorem conclude_stop (h : CallRules deps base Q R) {phase : ToolPhase} (hp : phase ≠ .go) :
    Triple R (concludePhase deps base phase) (Continues Q R) fun _ ↦ R := by
  have hend : ∀ state reason, Triple R (do
      endTurn deps base state reason
      setTerminalReason reason
      pure false) (Continues Q R) fun _ ↦ R := fun state reason ↦
    .bind (h.stop (footprint_endTurn.mono (by decide))) fun _ ↦
      .bind (h.stop footprint_setTerminalReason) fun _ ↦ .pure fun _ hr ↦ hr
  cases phase with
  | go => exact absurd rfl hp
  | budget reason => exact hend _ _
  | hookStop => exact hend _ _
  | cancelled =>
    exact .bind (h.stop (footprint_cancel.mono (by decide))) fun _ ↦
      .bind (h.stop footprint_setTerminalReason) fun _ ↦ .pure fun _ hr ↦ hr
  | awaitingApproval pending =>
    exact .bind (h.stop (footprint_modifyTurn (fun _ ↦ rfl) (fun _ ↦ rfl) fun _ ↦ rfl)) fun _ ↦ .pure fun _ hr ↦ hr

theorem conclude_go (h : CallRules deps base Q R) :
    Triple Q (concludePhase deps base .go) (Continues Q R) fun _ ↦ R := by
  refine (h.go (footprint_concludePhase.mono (by decide))).conseq (fun _ hq ↦ hq) (fun goes w hq ↦ ?_) fun _ _ hr ↦ hr
  cases goes with
  | true => exact hq
  | false => exact h.weaken hq

theorem phase (h : CallRules deps base Q R) (calls : List NormalizedToolCall) :
    Triple Q (toolPhase deps base calls) (Continues Q R) fun _ ↦ R := by
  rw [TurnEngine.toolPhase]
  split
  · exact .pure fun _ hq ↦ hq
  · refine .bind (h.go (footprint_transitionUnless (by decide))) fun _ ↦ ?_
    refine .bind (h.go (footprint_persistState (by decide))) fun _ ↦ ?_
    rw [runToolCalls, bind_assoc]
    refine .bind (h.go (footprint_planBatches (by decide))) fun groups ↦ ?_
    refine .bind (runGroups_rule (q := Concluded Q R) (fun _ ↦ .rfl) h.one h.batch calls groups) fun phase ↦ ?_
    by_cases hp : phase = .go
    · subst hp
      exact .bind (h.go (footprint_fireLifecycle (by decide))) fun _ ↦ h.conclude_go
    · refine Triple.conseq (s := R) ?_ (fun w hr ↦ ?_) (fun _ _ hr ↦ hr) fun _ _ hr ↦ hr
      · exact .bind (h.stop (footprint_fireLifecycle (by decide))) fun _ ↦ h.conclude_stop hp
      · cases phase with
        | go => exact absurd rfl hp
        | _ => exact hr

theorem loop (h : CallRules deps base Q R) (ctx : DriveContext) (fuel : ℕ)
    (calls : List NormalizedToolCall) :
    Triple Q (driveLoop deps base ctx fuel calls) (fun _ ↦ R) fun _ ↦ R := by
  induction fuel generalizing calls with
  | zero => exact .pure fun _ hq ↦ h.weaken hq
  | succ fuel ih =>
    rw [driveLoop]
    refine .bind (h.go (footprint_signalAborted (by decide))) fun aborted ↦ ?_
    split
    · refine .bind (h.go (footprint_cancel.mono (by decide))) fun _ ↦ ?_
      exact (h.go footprint_setTerminalReason).conseq (fun _ hq ↦ hq) (fun _ _ hq ↦ h.weaken hq)
        fun _ _ hr ↦ hr
    · refine .bind (h.phase calls) fun goes ↦ ?_
      cases goes with
      | false => exact .pure fun _ hr ↦ hr
      | true =>
        refine .bind (h.go footprint_modelPhase) fun next ↦ ?_
        cases next with
        | some calls => exact ih calls
        | none => exact .pure fun _ hq ↦ h.weaken hq

/-- **The rule of the loop.** What the calls of a round keep holds when the turn is over. -/
theorem drive (h : CallRules deps base Q R) (ctx : DriveContext)
    (seedCalls : List NormalizedToolCall) :
    Triple Q (drive deps base ctx seedCalls) (fun _ ↦ R) fun _ ↦ R := by
  refine .bind (.tryCatch (h.loop ctx _ seedCalls) fun e ↦
    h.stop (footprint_driveCatch.mono (by decide))) fun _ ↦ ?_
  exact h.stop (footprint_get _)

end CallRules

/-- What `run` records before the loop. -/
def openingKinds : List Kind := [.turnStarted, .said, .lifecycle]

/-- Only the opening of a turn was recorded yet. -/
structure Opening (deps : TurnEngineDeps σ) (env : σ) (drawn : ℕ) (w : World σ) : Prop where
  kinds : ∀ e ∈ w.trace, e.obs.kind ∈ openingKinds
  drawn : drawn ≤ w.drawn
  linked : Linked deps env w.trace w.env

theorem Opening.leaves {env : σ} {drawn : ℕ} {w w' : World σ} (h : Opening deps env drawn w)
    (hl : Leaves deps openingKinds w w') : Opening deps env drawn w' := by
  obtain ⟨⟨seg, htrace, hkinds, -, hlinked⟩, hdrawn, -, -, -, -⟩ := hl
  refine ⟨fun e he ↦ ?_, h.drawn.trans hdrawn, htrace ▸ h.linked.append hlinked⟩
  rw [htrace] at he
  exact (List.mem_append.mp he).elim (h.kinds e) (hkinds e)

/-- **The rule of a turn.** If `Q` holds of a turn that has recorded no more than its opening, and
the calls of a round keep `Q` and `R`, then `R` holds when the turn is over. -/
theorem enter_holds {env : σ} {drawn : ℕ} (hopen : ∀ {w}, Opening deps env drawn w → Q w)
    (rules : ∀ base, CallRules deps base Q R) (input : TurnInput) :
    R (after (enter deps input (initial env drawn))) := by
  have hinit : Opening deps env drawn (initial env drawn) := ⟨by simp [initial], le_rfl, .nil env⟩
  have hweaken : ∀ {w}, Q w → R w := by
    cases input with
    | run input => exact (rules (input.base "")).weaken
    | resume input => exact (rules input.base).weaken
  have hm : ∀ {α : Type} {m : Engine σ α}, Footprint deps openingKinds m →
      Triple (Opening deps env drawn) m (fun _ ↦ Opening deps env drawn) fun _ ↦ R := fun hm ↦
    (hm.keeps fun hl ho ↦ ho.leaves hl).conseq (fun _ ho ↦ ho) (fun _ _ ho ↦ ho) fun _ _ ho ↦
      hweaken (hopen ho)
  have hturn : ∀ turn : Turn, Triple (Opening deps env drawn) (modifyTurn fun _ ↦ turn)
      (fun _ ↦ Opening deps env drawn) fun _ ↦ R := fun _ _ ho ↦ ⟨ho.kinds, ho.drawn, ho.linked⟩
  have hdrive : ∀ base ctx calls,
      Triple (Opening deps env drawn) (drive deps base ctx calls) (fun _ ↦ R) fun _ ↦ R := fun base ctx calls ↦
    ((rules base).drive ctx calls).conseq (fun _ ho ↦ hopen ho) (fun _ _ hr ↦ hr) fun _ _ hr ↦ hr
  have henter : Triple (Opening deps env drawn) (enter deps input) (fun _ ↦ R) fun _ ↦ R := by
    cases input with
    | run input =>
      refine .bind (hm footprint_now) fun now ↦ ?_
      refine .bind (hm (footprint_draw _)) fun turnId ↦ ?_
      refine .bind (hturn _) fun _ ↦ ?_
      refine .bind (hm (footprint_persist .turnStarted rfl (by decide))) fun _ ↦ ?_
      refine .bind (hm (footprint_say (by decide))) fun _ ↦ ?_
      exact .bind (hm (footprint_drainNotifications (by decide) (by decide))) fun _ ↦ hdrive _ _ _
    | resume input =>
      refine .bind (hm footprint_now) fun now ↦ ?_
      exact .bind (hturn _) fun _ ↦ hdrive _ _ _
  have hafter := henter _ hinit
  cases hr : enter deps input (initial env drawn) with
  | ok a w => rw [hr] at hafter; exact hafter
  | error e w => rw [hr] at hafter; exact hafter

/-- The records of a turn are linked. -/
theorem enter_linked (deps : TurnEngineDeps σ) (input : TurnInput) (env : σ) (drawn : ℕ) :
    Linked deps env (after (enter deps input (initial env drawn))).trace
      (after (enter deps input (initial env drawn))).env := by
  have hkeep : ∀ {ks : List Kind} {w w' : World σ}, Leaves deps ks w w' →
      Linked deps env w.trace w.env → Linked deps env w'.trace w'.env := by
    intro ks w w' hl hw
    obtain ⟨seg, htrace, -, -, hlinked⟩ := hl.records
    rw [htrace]
    exact hw.append hlinked
  have hphase : ∀ {ks : List Kind} {m : Engine σ ToolPhase}, Footprint deps ks m →
      Triple (fun w ↦ Linked deps env w.trace w.env) m
        (Concluded (fun w ↦ Linked deps env w.trace w.env) fun w ↦ Linked deps env w.trace w.env)
        fun _ w ↦ Linked deps env w.trace w.env := fun hm ↦
    (hm.keeps hkeep).conseq (fun _ h ↦ h) (fun phase _ h ↦ by cases phase <;> exact h)
      fun _ _ h ↦ h
  exact enter_holds (R := fun w ↦ Linked deps env w.trace w.env)
    (Q := fun w ↦ Linked deps env w.trace w.env) (fun ho ↦ ho.linked)
    (fun base ↦
      { weaken := fun h ↦ h
        go_outer := hkeep
        stop_outer := hkeep
        one := fun _ ↦ hphase footprint_runOneCall
        batch := fun _ ↦ hphase (footprint_runParallelBatch _) }) input

end Rule

end TurnEngine

end QwenHarness
