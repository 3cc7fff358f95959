import QwenHarness.Cli.TeamHolding

/-!
# What a completed task stands for

A member completes a task when its work on it returned, and the work returns once it has recorded a
result. The result says whether the task was done: only if the lead approved a plan for it, and
granted the permission where one is needed, and the sandbox reported success. But the task is
completed in any case, and what waits for it goes on.
-/

namespace QwenHarness.Cli

open Tasks Teams

/-! ## What is on record -/

/-- The member sent this to the lead. -/
def Asked (run : TeamRun) (member : String) (message : ProtocolMessage) : Prop :=
  ∃ id, ⟨id, member, leadId, message⟩ ∈ run.bus

/-- The lead sent this to the member. -/
def Answered (run : TeamRun) (member : String) (message : ProtocolMessage) : Prop :=
  ∃ id, ⟨id, leadId, member, message⟩ ∈ run.bus

/-- The lead approved a plan of the member for a task with this subject. -/
def PlanApproved (run : TeamRun) (member subject : String) : Prop :=
  ∃ revision correlationId feedback,
    Asked run member (.planApprovalRequest correlationId (planText revision subject)) ∧
      Answered run member (.planApprovalResponse correlationId true feedback)

/-- The lead granted the member the permission for the task. -/
def PermissionGranted (run : TeamRun) (member : String) (taskId : ℤ) : Prop :=
  ∃ correlationId, Asked run member (.permissionRequest correlationId (actionText taskId)) ∧
    Answered run member (.permissionResponse correlationId true)

/-- The member may run the command of the task. -/
def Cleared (run : TeamRun) (member : String) (taskId : ℤ) (subject : String) : Prop :=
  PlanApproved run member subject ∧
    (needsPermission subject = true → PermissionGranted run member taskId)

/-- A result of the member for the task, which says that it was done only if it was. -/
structure Founded (run : TeamRun) (member : String) (taskId : ℤ) (subject : String)
    (result : TeamResult) : Prop where
  taskId_eq : result.taskId = taskId
  member_eq : result.member = member
  cleared : result.ok = true → Cleared run member taskId subject
  commanded : result.ok = true → ⟨member, taskId, true⟩ ∈ run.commands

/-- What is on record when the work has come this far. -/
def WorkStage.Recorded (run : TeamRun) (member : String) (taskId : ℤ) (subject : String) :
    WorkStage → Prop
  | .proposing _ => True
  | .awaitingPlan revision correlationId =>
    Asked run member (.planApprovalRequest correlationId (planText revision subject))
  | .asking => PlanApproved run member subject
  | .awaitingPermission correlationId => PlanApproved run member subject ∧
      Asked run member (.permissionRequest correlationId (actionText taskId))
  | .commanding => Cleared run member taskId subject
  | .reporting result => Founded run member taskId subject result
  | .finishing result => Founded run member taskId subject result ∧ result ∈ run.results

/-- The task is there, and this is what it is about. -/
def HasSubject (db : TaskDb) (taskId : ℤ) (subject : String) : Prop :=
  ∃ t, db.getTask taskId = some t ∧ t.subject = subject

def Doing.Recorded (run : TeamRun) (member : String) : Doing → Prop
  | .working taskId subject stage =>
    HasSubject run.db taskId subject ∧ stage.Recorded run member taskId subject
  | _ => True

/-! ### It stays on record -/

/-- Nothing is taken off the thread, and no task changes what it is about. -/
structure Grows (run run' : TeamRun) : Prop where
  bus : run.bus ⊆ run'.bus
  results : run.results ⊆ run'.results
  commands : run.commands ⊆ run'.commands
  subjects : ∀ taskId subject, HasSubject run.db taskId subject → HasSubject run'.db taskId subject

variable {run run' : TeamRun} {member subject : String} {taskId : ℤ}

theorem Grows.refl (run : TeamRun) : Grows run run :=
  ⟨List.Subset.refl _, List.Subset.refl _, List.Subset.refl _, fun _ _ h ↦ h⟩

theorem Grows.trans {run'' : TeamRun} (h : Grows run run') (h' : Grows run' run'') :
    Grows run run'' :=
  ⟨fun _ hm ↦ h'.bus (h.bus hm), fun _ hr ↦ h'.results (h.results hr),
    fun _ hc ↦ h'.commands (h.commands hc),
    fun taskId subject hs ↦ h'.subjects taskId subject (h.subjects taskId subject hs)⟩

/-- Who is there does not matter. -/
theorem grows_members (run : TeamRun) (lead : Lead) (members : List Member) :
    Grows run { run with lead, members } :=
  ⟨List.Subset.refl _, List.Subset.refl _, List.Subset.refl _, fun _ _ h ↦ h⟩

theorem Asked.grows {message : ProtocolMessage} (h : Asked run member message)
    (hgrows : Grows run run') : Asked run' member message :=
  h.imp fun _ hmem ↦ hgrows.bus hmem

theorem Answered.grows {message : ProtocolMessage} (h : Answered run member message)
    (hgrows : Grows run run') : Answered run' member message :=
  h.imp fun _ hmem ↦ hgrows.bus hmem

theorem PlanApproved.grows (h : PlanApproved run member subject) (hgrows : Grows run run') :
    PlanApproved run' member subject := by
  obtain ⟨revision, correlationId, feedback, hasked, hanswered⟩ := h
  exact ⟨revision, correlationId, feedback, hasked.grows hgrows, hanswered.grows hgrows⟩

theorem Cleared.grows (h : Cleared run member taskId subject) (hgrows : Grows run run') :
    Cleared run' member taskId subject := by
  refine ⟨h.1.grows hgrows, fun hneeds ↦ ?_⟩
  obtain ⟨correlationId, hasked, hanswered⟩ := h.2 hneeds
  exact ⟨correlationId, hasked.grows hgrows, hanswered.grows hgrows⟩

theorem Founded.grows {result : TeamResult} (h : Founded run member taskId subject result)
    (hgrows : Grows run run') : Founded run' member taskId subject result where
  taskId_eq := h.taskId_eq
  member_eq := h.member_eq
  cleared hok := (h.cleared hok).grows hgrows
  commanded hok := hgrows.commands (h.commanded hok)

theorem Doing.Recorded.grows {doing : Doing} (h : doing.Recorded run member)
    (hgrows : Grows run run') : doing.Recorded run' member := by
  cases doing with
  | working taskId subject stage =>
    refine ⟨hgrows.subjects _ _ h.1, ?_⟩
    have hstage := h.2
    cases stage with
    | proposing revision => exact trivial
    | awaitingPlan revision correlationId => exact Asked.grows hstage hgrows
    | asking => exact PlanApproved.grows hstage hgrows
    | awaitingPermission correlationId => exact ⟨hstage.1.grows hgrows, hstage.2.grows hgrows⟩
    | commanding => exact Cleared.grows hstage hgrows
    | reporting result => exact Founded.grows hstage hgrows
    | finishing result => exact ⟨hstage.1.grows hgrows, hgrows.results hstage.2⟩
  | _ => exact trivial

/-! ## The moves of a member -/

section Moves

variable {input : StepInput} {m : Member} {db : TaskDb}

theorem hasSubject_emits {now : ℕ → ℤ} {db db' : TaskDb} {events : List TaskEventInput}
    (h : TaskDb.Emits now db events db') (hsubject : HasSubject db taskId subject) :
    HasSubject db' taskId subject := by
  obtain ⟨t, ht, rfl⟩ := hsubject
  exact subject_emits h ht

theorem grows_of_emits {now : ℕ → ℤ} {events : List TaskEventInput}
    (h : TaskDb.Emits now run.db events db) : Grows run { run with db } :=
  { Grows.refl run with subjects := fun _ _ ↦ hasSubject_emits h }

theorem WorkMove.grows {stage stage' : WorkStage} {tracker : ProtocolTracker}
    (h : WorkMove m run taskId subject stage stage' tracker run') : Grows run run' := by
  cases h with
  | propose => exact { Grows.refl run with bus := List.subset_append_left _ _ }
  | ask => exact { Grows.refl run with bus := List.subset_append_left _ _ }
  | command => exact { Grows.refl run with commands := List.subset_append_left _ _ }
  | report => exact { Grows.refl run with results := List.subset_append_left _ _ }
  | _ => exact .refl run

theorem MemberMove.grows {r : Member × TeamRun} (h : MemberMove input m run r) : Grows run r.2 := by
  cases h with
  | won hdoing hclaim =>
    rcases TaskGraph.claim_ok hclaim with ⟨⟨_, hlost⟩, -⟩ | ⟨-, -, -, hemits⟩
    · cases hlost
    · exact grows_of_emits hemits
  | start hdoing hstart => exact grows_of_emits (TaskGraph.start_ok hstart).2.2
  | work aborted hdoing hwork => exact hwork.grows
  | complete hdoing hcomplete =>
    obtain ⟨-, db₁, hemits, hflips⟩ := TaskGraph.complete_ok hcomplete
    exact grows_of_emits (hemits.append hflips)
  | release hdoing hrelease => exact grows_of_emits (TaskGraph.release_ok hrelease).2
  | _ => exact .refl run

theorem WorkMove.addressed {stage stage' : WorkStage} {tracker : ProtocolTracker}
    (h : WorkMove m run taskId subject stage stage' tracker run')
    (haddressed : Addressed m.member m.tracker) : Addressed m.member tracker := by
  cases h with
  | propose => exact haddressed.register _
  | ask => exact haddressed.register _
  | approved hresponds => exact (hresponds.addressed haddressed).1
  | revise hresponds => exact (hresponds.addressed haddressed).1
  | granted hresponds => exact (hresponds.addressed haddressed).1
  | giveUp stage hresult htracker => exact htracker haddressed
  | _ => exact haddressed

theorem Negative.founded {result : TeamResult} (h : Negative m taskId result) :
    Founded run m.member taskId subject result where
  taskId_eq := h.1
  member_eq := h.2.1
  cleared hok := absurd (h.2.2.symm.trans hok) Bool.false_ne_true
  commanded hok := absurd (h.2.2.symm.trans hok) Bool.false_ne_true

/-- An approving answer is an approval. -/
theorem Responds.approves {correlationId : String} {message : ProtocolMessage}
    {tracker : ProtocolTracker} {revision : ℕ}
    (h : Responds m run correlationId .planApprovalResponse message tracker)
    (haddressed : Addressed m.member m.tracker) (happroves : approves message = true)
    (hasked : Asked run m.member (.planApprovalRequest correlationId (planText revision subject))) :
    PlanApproved run m.member subject := by
  obtain ⟨-, id, hmem⟩ := h.addressed haddressed
  have hcorrelation := h.correlation
  cases message with
  | planApprovalResponse c approved feedback =>
    obtain rfl : approved = true := happroves
    obtain rfl : c = correlationId := Option.some.inj hcorrelation
    exact ⟨revision, c, feedback, hasked, id, hmem⟩
  | _ => exact absurd happroves Bool.false_ne_true

/-- An answer that does not deny is a grant. -/
theorem Responds.grants {correlationId : String} {message : ProtocolMessage}
    {tracker : ProtocolTracker}
    (h : Responds m run correlationId .permissionResponse message tracker)
    (haddressed : Addressed m.member m.tracker) (hdenies : denies message = false)
    (hasked : Asked run m.member (.permissionRequest correlationId (actionText taskId))) :
    PermissionGranted run m.member taskId := by
  obtain ⟨-, id, hmem⟩ := h.addressed haddressed
  have hcorrelation := h.correlation
  have htype := h.type_eq
  cases message with
  | permissionResponse c granted =>
    obtain rfl : granted = true := by
      rw [denies, Bool.not_eq_false'] at hdenies
      exact hdenies
    obtain rfl : c = correlationId := Option.some.inj hcorrelation
    exact ⟨c, hasked, id, hmem⟩
  | _ => cases htype

theorem WorkMove.recorded {stage stage' : WorkStage} {tracker : ProtocolTracker}
    (h : WorkMove m run taskId subject stage stage' tracker run')
    (haddressed : Addressed m.member m.tracker)
    (hstage : stage.Recorded run m.member taskId subject) :
    stage'.Recorded run' m.member taskId subject := by
  have hgrows := h.grows
  cases h with
  | wait => exact hstage
  | propose revision correlationId messageId =>
    exact ⟨messageId, List.mem_append_right _ (List.mem_singleton_self _)⟩
  | approved hresponds happroves =>
    have happroved := hresponds.approves haddressed happroves hstage
    by_cases hneeds : needsPermission subject = true
    · rw [if_pos hneeds]
      exact happroved
    · rw [if_neg hneeds]
      exact ⟨happroved, fun h ↦ absurd h hneeds⟩
  | revise => exact trivial
  | ask correlationId messageId =>
    exact ⟨PlanApproved.grows hstage hgrows,
      messageId, List.mem_append_right _ (List.mem_singleton_self _)⟩
  | granted hresponds hgranted =>
    exact ⟨hstage.1, fun _ ↦ hresponds.grants haddressed hgranted hstage.2⟩
  | command ok detail relPath =>
    refine ⟨rfl, rfl, fun _ ↦ Cleared.grows hstage hgrows, fun hok ↦ ?_⟩
    obtain rfl : ok = true := hok
    exact List.mem_append_right _ (List.mem_singleton_self _)
  | giveUp stage hresult => exact hresult.founded
  | report result =>
    exact ⟨Founded.grows hstage hgrows,
      List.mem_append_right _ (List.mem_singleton_self _)⟩

/-- **A move of a member** leaves on record what the work of the member rests on. -/
theorem MemberMove.recorded {r : Member × TeamRun} (h : MemberMove input m run r)
    (hm : m.doing.Holds run.db m.member) (haddressed : Addressed m.member m.tracker)
    (hrecorded : m.doing.Recorded run m.member) :
    Addressed m.member r.1.tracker ∧ r.1.doing.Recorded r.2 m.member := by
  cases h with
  | free hname htracker hfree =>
    refine ⟨htracker ▸ haddressed, ?_⟩
    revert hfree
    generalize (_ : Member).doing = doing
    cases doing with
    | working => exact False.elim
    | _ => exact fun _ ↦ trivial
  | opened hdoing =>
    rw [hdoing] at hm
    refine ⟨haddressed, ?_, trivial⟩
    obtain ⟨-, hstate⟩ := Holding.owned hm
    obtain ⟨t, ht, -⟩ := TaskDb.state_eq_some.mp hstate
    refine ⟨t, ht, ?_⟩
    rw [TaskGraph.get, ht]
    rfl
  | work aborted hdoing hwork =>
    rw [hdoing] at hrecorded
    exact ⟨hwork.addressed haddressed, hwork.grows.subjects _ _ hrecorded.1,
      hwork.recorded haddressed hrecorded.2⟩
  | _ => exact ⟨haddressed, trivial⟩

end Moves

/-! ## Runs -/

/-- What the work of the members rests on is on record. -/
def TeamRun.OnRecord (run : TeamRun) : Prop :=
  ∀ (k : ℕ) (m : Member), run.members[k]? = some m →
    Addressed m.member m.tracker ∧ m.doing.Recorded run m.member

variable {ids : IdSource} {size : ℕ}

theorem LeadMove.grows (h : LeadMove ids size run run') : Grows run run' := by
  cases h with
  | serve hlead hbus => exact { Grows.refl run with bus := hbus }
  | create hphase hcreate =>
    obtain ⟨parsed, -, -, -, -, hemits⟩ := TaskGraph.create_ok hcreate
    exact { Grows.refl run with subjects := fun _ _ h ↦ hasSubject_emits hemits h }
  | created hphase => exact grows_members run _ run.members
  | launch hphase => exact grows_members run _ _
  | lose hlead hlength hmembers => exact grows_members run _ _

theorem LeadMove.who {k : ℕ} {m' : Member} (h : LeadMove ids size run run')
    (hk : run'.members[k]? = some m') :
    (∃ m, run.members[k]? = some m ∧ SameOrDead m m') ∨
      m' = .fresh (ids.next run.lead.drawn "mem") := by
  cases h with
  | launch hphase =>
    rcases getElem?_concat hk with hk | ⟨-, rfl⟩
    · exact .inl ⟨m', hk, rfl, rfl, .inl rfl⟩
    · exact .inr rfl
  | lose hlead hlength hmembers => exact .inl (hmembers k m' hk)
  | _ => exact .inl ⟨m', hk, rfl, rfl, .inl rfl⟩

/-- **Every move** leaves on record what the work of the members rests on. -/
theorem TeamRun.OnRecord.move {setup : TeamSetup} (h : run.OnRecord)
    (hholds : run.Holds setup.ids) (move : TeamMove) : (run.move setup move).OnRecord := by
  rcases move_cases setup run move with ⟨k, input, m, r, -, hm, hmove, heq⟩ | hlead
  · rw [heq]
    obtain ⟨haddressed, hrecorded⟩ := h k m hm
    have hafter := hmove.recorded (hholds.holds k m hm) haddressed hrecorded
    have hmembers := grows_members r.2 r.2.lead (run.members.set k r.1)
    have hname := hmove.member
    intro j x hj
    rcases getElem?_set_cases hj with ⟨rfl, rfl⟩ | ⟨-, hj⟩
    · rw [hname]
      exact ⟨hafter.1, hafter.2.grows hmembers⟩
    · obtain ⟨haddressed', hrecorded'⟩ := h j x hj
      exact ⟨haddressed', hrecorded'.grows (hmove.grows.trans hmembers)⟩
  · intro j x hj
    rcases hlead.who hj with ⟨m, hm, hname, htracker, hdoing⟩ | rfl
    · obtain ⟨haddressed, hrecorded⟩ := h j m hm
      rw [hname, htracker]
      refine ⟨haddressed, ?_⟩
      rcases hdoing with hsame | hdead
      · rw [hsame]
        exact hrecorded.grows hlead.grows
      · rw [hdead]
        exact trivial
    · exact ⟨addressed_empty _, trivial⟩

/-- A state that a run comes to. -/
structure TeamRun.Sound (ids : IdSource) (run : TeamRun) : Prop where
  holds : run.Holds ids
  onRecord : run.OnRecord

theorem sound_moves (setup : TeamSetup) {run : TeamRun} (h : run.Sound setup.ids)
    (moves : List TeamMove) : (run.moves setup moves).Sound setup.ids := by
  induction moves generalizing run with
  | nil => exact h
  | cons move moves ih => exact ih ⟨h.holds.move move, h.onRecord.move h.holds move⟩

theorem sound_start (ids : IdSource) (db : TaskDb) (bus : List BusEnvelope)
    (results : List TeamResult) (specs : List TaskSpec) (drawn : ℕ) :
    (TeamRun.start db bus results specs drawn).Sound ids := by
  refine ⟨holds_start .., ?_⟩
  rintro k m ⟨⟩

/-! ## Completion -/

variable {setup : TeamSetup}

/-- A task that is completed by this move is completed by the member that has it in progress, after
the work of the member on it recorded a result. -/
def CompletesByWork (setup : TeamSetup) (run : TeamRun) (move : TeamMove) : Prop :=
  ∀ id, ¬ InStatus run.db id .completed → InStatus (run.move setup move).db id .completed →
    ∃ k input m subject result, move = .step k input ∧ run.members[k]? = some m ∧
      m.doing = .working id subject (.finishing result) ∧
      run.db.board.state id = some (.inProgress, some m.member) ∧ HasSubject run.db id subject ∧
      result ∈ run.results ∧ Founded run m.member id subject result

/-- Whatever the result is, the task is completed. -/
def CompletesAnyway (setup : TeamSetup) (run : TeamRun) : Prop :=
  ∀ (k : ℕ) (m : Member) (id : ℤ) (subject : String) (result : TeamResult),
    run.members[k]? = some m → m.doing = .working id subject (.finishing result) →
      ∀ input, InStatus (run.move setup (.step k input)).db id .completed

/-- A task that is started by this move does not wait for any that is open. -/
def StartsInOrder (setup : TeamSetup) (run : TeamRun) (move : TeamMove) : Prop :=
  ∀ id, ¬ InStatus run.db id .inProgress → InStatus (run.move setup move).db id .inProgress →
    ∀ b, run.db.board.waits b id → run.db.board.Done b

theorem LeadMove.inStatus {id : ℤ} {s : TaskStatus} (h : LeadMove ids size run run')
    (hpending : s ≠ .pending) (hblocked : s ≠ .blocked) (hs : InStatus run'.db id s) :
    InStatus run.db id s := by
  cases h with
  | create hphase hcreate => exact TaskGraph.inStatus_create hcreate hpending hblocked hs
  | _ => exact hs

theorem MemberMove.completes {input : StepInput} {m : Member} {r : Member × TeamRun} {id : ℤ}
    (h : MemberMove input m run r) (hbefore : ¬ InStatus run.db id .completed)
    (hafter : InStatus r.2.db id .completed) :
    ∃ subject result, m.doing = .working id subject (.finishing result) := by
  cases h with
  | won hdoing hclaim =>
    exact absurd (TaskGraph.inStatus_claim hclaim (by decide) hafter) hbefore
  | start hdoing hstart =>
    exact absurd (TaskGraph.inStatus_start hstart (.inr (by decide)) hafter) hbefore
  | work aborted hdoing hwork =>
    rw [hwork.graph] at hafter
    exact absurd hafter hbefore
  | @complete taskId subject result _ _ hdoing hcomplete =>
    by_cases hid : id = taskId
    · subst hid
      exact ⟨subject, result, hdoing⟩
    · exact absurd (TaskGraph.inStatus_complete hcomplete (.inl hid) (by decide) hafter) hbefore
  | release hdoing hrelease =>
    exact absurd (TaskGraph.inStatus_release hrelease (by decide) hafter) hbefore
  | _ => exact absurd hafter hbefore

theorem completesByWork (h : run.Sound setup.ids) (move : TeamMove) :
    CompletesByWork setup run move := by
  intro id hbefore hafter
  rcases move_cases setup run move with ⟨k, input, m, r, hmove, hm, hstep, heq⟩ | hlead
  · rw [heq] at hafter
    obtain ⟨subject, result, hdoing⟩ := hstep.completes hbefore hafter
    have hhold := h.holds.holds k m hm
    obtain ⟨-, hrecorded⟩ := h.onRecord k m hm
    rw [hdoing] at hhold hrecorded
    obtain ⟨hsubject, hfounded, hresult⟩ := hrecorded
    exact ⟨k, input, m, subject, result, hmove, hm, hdoing, (Holding.owned hhold).2, hsubject,
      hresult, hfounded⟩
  · exact absurd (hlead.inStatus (by decide) (by decide) hafter) hbefore

theorem completesAnyway (h : run.Sound setup.ids) : CompletesAnyway setup run := by
  intro k m id subject result hm hdoing input
  have hhold := h.holds.holds k m hm
  rw [hdoing] at hhold
  obtain ⟨t, ht, hs, -⟩ := TaskDb.state_eq_some.mp (Holding.owned hhold).2
  obtain ⟨r, db, hcomplete⟩ :=
    TaskGraph.complete_of_inProgress input.now (teammateActor m.member) ht hs
  have hdb : (run.move setup (.step k input)).db = db := by
    rw [TeamRun.move, hm]
    dsimp only
    rw [memberStep, hdoing]
    dsimp only
    rw [workStep, hcomplete]
  rw [hdb]
  exact TaskGraph.inStatus_of_complete hcomplete

theorem startsInOrder (run : TeamRun) (move : TeamMove) : StartsInOrder setup run move := by
  intro id hbefore hafter
  rcases move_cases setup run move with ⟨k, input, m, r, -, -, hstep, heq⟩ | hlead
  · rw [heq] at hafter
    cases hstep with
    | won hdoing hclaim =>
      exact absurd (TaskGraph.inStatus_claim hclaim (by decide) hafter) hbefore
    | @start taskId _ _ hdoing hstart =>
      by_cases hid : id = taskId
      · subst hid
        have hready := (TaskGraph.start_ok hstart).2.1
        rw [TaskDb.allBlockersCompleted_iff_not_waiting] at hready
        exact Board.not_waiting_iff.mp hready
      · exact absurd (TaskGraph.inStatus_start hstart (.inl hid) hafter) hbefore
    | work aborted hdoing hwork =>
      dsimp only at hafter
      rw [hwork.graph] at hafter
      exact absurd hafter hbefore
    | complete hdoing hcomplete =>
      exact absurd (TaskGraph.inStatus_complete hcomplete (.inr (by decide)) (by decide) hafter)
        hbefore
    | release hdoing hrelease =>
      exact absurd (TaskGraph.inStatus_release hrelease (by decide) hafter) hbefore
    | _ => exact absurd hafter hbefore
  · exact absurd (hlead.inStatus (by decide) (by decide) hafter) hbefore

/-- A completed task was approved and done. -/
def CompletedOnlyIfDone (run : TeamRun) : Prop :=
  ∀ id, InStatus run.db id .completed → ∃ member subject, HasSubject run.db id subject ∧
    Cleared run member id subject ∧ ⟨member, id, true⟩ ∈ run.commands

/-- The command is refused. -/
def refusedInput : StepInput := ⟨fun _ ↦ 0, 0, "cor_1", "msg_1", false, false, some "denied"⟩

def refusedRun : TeamRun :=
  (TeamRun.start TaskDb.empty [] [] [⟨"t1", none⟩] 0).moves ⟨countIds, 1, decideAsLead⟩
    ([.create fun _ ↦ 0, .create fun _ ↦ 0, .launch, .launch] ++
      List.replicate 6 (.step 0 refusedInput) ++ [.answer] ++
      List.replicate 4 (.step 0 refusedInput))

end QwenHarness.Cli
