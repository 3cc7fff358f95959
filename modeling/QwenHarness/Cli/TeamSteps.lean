import QwenHarness.Cli.Team
import QwenHarness.Tasks.Effects

/-!
# What a move of a team run can do

Every move of a member is one of a few: it goes on without a task, it takes a step of the way a task
goes, or it works on one. Each way is listed with what it reads and what it leaves, so that what is
said of a run below does not look at the code of a move again.
-/

namespace QwenHarness.Cli

open Tasks Teams

/-! ## Responses -/

/-- All requests that wait were made by the member, of the lead. -/
def Addressed (member : String) (tracker : ProtocolTracker) : Prop :=
  ∀ o ∈ tracker.outstanding.rows, o.sender = member ∧ o.recipient = leadId

theorem addressed_empty (member : String) : Addressed member ProtocolTracker.empty := by
  rintro o ⟨⟩

theorem Addressed.register {member : String} {tracker : ProtocolTracker}
    (h : Addressed member tracker) (message : ProtocolMessage) :
    Addressed member (tracker.register message member leadId) := by
  rw [ProtocolTracker.register]
  split
  · exact h
  · next correlationId _ =>
    split
    · intro o ho
      rcases Keyed.mem_rows_upsert _ ho with rfl | ⟨old, rfl⟩ | ho
      · exact ⟨rfl, rfl⟩
      · exact ⟨rfl, rfl⟩
      · exact h o ho
    · exact h

/-- A response that counts comes from the one that was asked. -/
theorem Addressed.matchResponse {member sender : String} {tracker tracker' : ProtocolTracker}
    {message : ProtocolMessage} (h : Addressed member tracker)
    (hmatch : tracker.matchResponse message sender member = .ok tracker') :
    sender = leadId ∧ Addressed member tracker' := by
  rw [ProtocolTracker.matchResponse] at hmatch
  split at hmatch
  · split at hmatch
    · cases hmatch
    · next req hreq =>
      obtain ⟨hmem, -⟩ := Keyed.find?_eq_some_iff.mp hreq
      dsimp only at hmatch
      generalize (if req.requestType = .shutdownRequest then
          decide (message.type = .shutdownApproved ∨ message.type = .shutdownRejected)
        else decide (responseFor req.requestType = some message.type)) = expected at hmatch
      split_ifs at hmatch with hexpected hfrom
      cases hmatch
      obtain ⟨hsender, -⟩ := not_or.mp hfrom
      refine ⟨(not_not.mp hsender).trans (h req hmem).2, fun o ho ↦ ?_⟩
      rw [Keyed.rows_filter] at ho
      exact h o (List.mem_of_mem_filter ho)
  · cases hmatch

/-- A message to the member that answers its request is on the bus. -/
structure Responds (m : Member) (run : TeamRun) (correlationId : String)
    (type : ProtocolMessageType) (message : ProtocolMessage) (tracker : ProtocolTracker) : Prop where
  type_eq : message.type = type
  correlation : correlationOf message = some correlationId
  addressed : Addressed m.member m.tracker → Addressed m.member tracker ∧
    ∃ id, ⟨id, leadId, m.member, message⟩ ∈ run.bus

variable {input : StepInput} {m : Member} {run : TeamRun}

theorem awaitResponse_cases (m : Member) (run : TeamRun) (correlationId : String)
    (type : ProtocolMessageType) (timedOut : Bool) :
    m.awaitResponse correlationId type timedOut run.bus = (.nothing, m) ∨
    (∃ aborted, m.awaitResponse correlationId type timedOut run.bus =
      (.over, { m with aborted })) ∨
    m.awaitResponse correlationId type timedOut run.bus = (.broken, m) ∨
    ∃ message tracker, m.awaitResponse correlationId type timedOut run.bus =
        (.answered message, { m with tracker }) ∧
      Responds m run correlationId type message tracker := by
  rw [Member.awaitResponse]
  split
  · exact .inr (.inl ⟨m.aborted, rfl⟩)
  · split
    · exact .inl rfl
    · next env hfind =>
      have hmem := List.mem_of_find?_eq_some hfind
      have hfound := List.find?_some hfind
      have hto : env.recipient = m.member :=
        of_decide_eq_true (Bool.and_eq_true_iff.mp hfound).1
      split
      · next hanswers =>
        obtain ⟨htype, hcorrelation⟩ := of_decide_eq_true hanswers
        split
        · next tracker hmatch =>
          refine .inr (.inr (.inr ⟨_, tracker, rfl, htype, hcorrelation, fun h ↦ ?_⟩))
          obtain ⟨hsender, htracker⟩ := h.matchResponse hmatch
          refine ⟨htracker, env.id, ?_⟩
          obtain ⟨id, sender, recipient, message⟩ := env
          obtain rfl : sender = leadId := hsender
          obtain rfl : recipient = m.member := hto
          exact hmem
        · exact .inr (.inr (.inl rfl))
      · exact .inr (.inl ⟨true, rfl⟩)

/-! ## Working on a task -/

/-- A result that says that the task was not done. -/
def Negative (m : Member) (taskId : ℤ) (result : TeamResult) : Prop :=
  result.taskId = taskId ∧ result.member = m.member ∧ result.ok = false

/-- One move of the work on a task, up to its end. -/
inductive WorkMove (m : Member) (run : TeamRun) (taskId : ℤ) (subject : String) :
    WorkStage → WorkStage → ProtocolTracker → TeamRun → Prop
  | wait (stage : WorkStage) : WorkMove m run taskId subject stage stage m.tracker run
  | propose (revision : ℕ) (correlationId messageId : String) :
    WorkMove m run taskId subject (.proposing revision) (.awaitingPlan revision correlationId)
      (m.tracker.register (.planApprovalRequest correlationId (planText revision subject)) m.member
        leadId)
      (run.post ⟨messageId, m.member, leadId,
        .planApprovalRequest correlationId (planText revision subject)⟩)
  | approved {revision : ℕ} {correlationId : String} {message : ProtocolMessage}
      {tracker : ProtocolTracker}
      (h : Responds m run correlationId .planApprovalResponse message tracker)
      (happroves : approves message = true) :
    WorkMove m run taskId subject (.awaitingPlan revision correlationId)
      (if needsPermission subject then .asking else .commanding) tracker run
  | revise {revision : ℕ} {correlationId : String} {message : ProtocolMessage}
      {tracker : ProtocolTracker}
      (h : Responds m run correlationId .planApprovalResponse message tracker) :
    WorkMove m run taskId subject (.awaitingPlan revision correlationId) (.proposing (revision + 1))
      tracker run
  | ask (correlationId messageId : String) :
    WorkMove m run taskId subject .asking (.awaitingPermission correlationId)
      (m.tracker.register (.permissionRequest correlationId (actionText taskId)) m.member leadId)
      (run.post ⟨messageId, m.member, leadId,
        .permissionRequest correlationId (actionText taskId)⟩)
  | granted {correlationId : String} {message : ProtocolMessage} {tracker : ProtocolTracker}
      (h : Responds m run correlationId .permissionResponse message tracker)
      (hgranted : denies message = false) :
    WorkMove m run taskId subject (.awaitingPermission correlationId) .commanding tracker run
  | command (ok : Bool) (detail relPath : Option String) :
    WorkMove m run taskId subject .commanding (.reporting ⟨taskId, m.member, ok, detail, relPath⟩)
      m.tracker { run with commands := run.commands ++ [⟨m.member, taskId, ok⟩] }
  /-- Something is missing, and the member says so. -/
  | giveUp (stage : WorkStage) {result : TeamResult} {tracker : ProtocolTracker}
      (hresult : Negative m taskId result)
      (htracker : Addressed m.member m.tracker → Addressed m.member tracker) :
    WorkMove m run taskId subject stage (.reporting result) tracker run
  | report (result : TeamResult) :
    WorkMove m run taskId subject (.reporting result) (.finishing result) m.tracker
      { run with results := run.results ++ [result] }

/-- The work on a task does not touch the graph. -/
theorem WorkMove.graph {taskId : ℤ} {subject : String} {stage stage' : WorkStage}
    {tracker : ProtocolTracker} {run' : TeamRun}
    (h : WorkMove m run taskId subject stage stage' tracker run') :
    run'.db = run.db := by
  cases h <;> rfl

/-- Without a task, and not about to take one. -/
def Doing.Free : Doing → Prop
  | .polling | .listing | .idling | .leaving | .stopped | .crashed => True
  | _ => False

/-- One move of a member. -/
inductive MemberMove (input : StepInput) (m : Member) (run : TeamRun) : Member × TeamRun → Prop
  | free {m' : Member} (hname : m'.member = m.member) (htracker : m'.tracker = m.tracker)
      (hfree : m'.doing.Free) : MemberMove input m run (m', run)
  | scan : MemberMove input m run (m.at (.claiming (claimable run.db)), run)
  | lost {task : Task} {tasks : List Task} (hdoing : m.doing = .claiming (task :: tasks)) :
    MemberMove input m run (m.at (.claiming tasks), run)
  | won {task won : Task} {tasks : List Task} {records : List TaskEventRecord} {db : TaskDb}
      {teammate : Teammate} (hdoing : m.doing = .claiming (task :: tasks))
      (h : TaskGraph.claim input.now (teammateActor m.member) run.db task.id m.member =
        (.ok (.won won, records), db)) :
    MemberMove input m run ({ m with teammate, doing := .starting task.id }, { run with db })
  | start {id : ℤ} {r : Task × List TaskEventRecord} {db : TaskDb} (hdoing : m.doing = .starting id)
      (h : TaskGraph.start input.now (teammateActor m.member) run.db id = (.ok r, db)) :
    MemberMove input m run (m.at (.opening id), { run with db })
  | opened {id : ℤ} (hdoing : m.doing = .opening id) :
    MemberMove input m run
      (m.at (.working id (((TaskGraph.get run.db id).map Task.subject).getD ("task " ++ toString id))
        (.proposing 0)), run)
  | work {id : ℤ} {subject : String} {stage stage' : WorkStage} {tracker : ProtocolTracker}
      {run' : TeamRun} (aborted : Bool) (hdoing : m.doing = .working id subject stage)
      (h : WorkMove m run id subject stage stage' tracker run') :
    MemberMove input m run
      ({ m with aborted, tracker, doing := .working id subject stage' }, run')
  | complete {id : ℤ} {subject : String} {result : TeamResult}
      {r : CompleteResult × List TaskEventRecord} {db : TaskDb}
      (hdoing : m.doing = .working id subject (.finishing result))
      (h : TaskGraph.complete input.now (teammateActor m.member) run.db id = (.ok r, db)) :
    MemberMove input m run (m.at .polling, { run with db })
  | leave : MemberMove input m run
      (m.at (.releasing ((TaskGraph.list run.db false).filter (isHeldBy m.member))), run)
  | release {task : Task} {tasks : List Task} {r : Task × List TaskEventRecord} {db : TaskDb}
      (hdoing : m.doing = .releasing (task :: tasks))
      (h : TaskGraph.release input.now (teammateActor m.member) run.db task.id = (.ok r, db)) :
    MemberMove input m run (m.at (.releasing tasks), { run with db })

theorem MemberMove.dies {db : TaskDb} (hdb : db = run.db) :
    MemberMove input m run (m.at .crashed, { run with db }) := by
  subst hdb
  exact .free rfl rfl trivial

/-- The member waits, and stays where it is. -/
theorem MemberMove.waits {taskId : ℤ} {subject : String} {stage : WorkStage}
    (hdoing : m.doing = .working taskId subject stage) : MemberMove input m run (m, run) := by
  have hwait : WorkMove m run taskId subject stage stage m.tracker run := .wait stage
  have hsame : MemberMove input m run ({ m with doing := .working taskId subject stage }, run) :=
    .work m.aborted hdoing hwait
  rwa [← hdoing] at hsame

/-- What `workStep` does is one of the moves. -/
theorem memberMove_workStep {taskId : ℤ} {subject : String} {stage : WorkStage}
    (hdoing : m.doing = .working taskId subject stage) :
    MemberMove input m run (workStep input m run taskId subject stage) := by
  cases stage with
  | proposing revision => exact .work m.aborted hdoing (.propose revision _ _)
  | asking => exact .work m.aborted hdoing (.ask _ _)
  | commanding => exact .work m.aborted hdoing (.command _ _ _)
  | reporting result => exact .work m.aborted hdoing (.report result)
  | awaitingPlan revision correlationId =>
    rw [workStep]
    rcases awaitResponse_cases m run correlationId .planApprovalResponse
        input.timedOut with h | ⟨aborted, h⟩ | h | ⟨message, tracker, h, hresponds⟩
    all_goals rw [h]; dsimp only
    · exact .waits hdoing
    · exact .work aborted hdoing (.giveUp _ ⟨rfl, rfl, rfl⟩ id)
    · exact .free rfl rfl trivial
    · by_cases happroves : approves message = true
      · rw [if_pos happroves]
        exact .work m.aborted hdoing (.approved hresponds happroves)
      · rw [if_neg happroves]
        split_ifs
        · exact .work m.aborted hdoing (.revise hresponds)
        · exact .work m.aborted hdoing
            (.giveUp _ ⟨rfl, rfl, rfl⟩ fun h ↦ (hresponds.addressed h).1)
  | awaitingPermission correlationId =>
    rw [workStep]
    rcases awaitResponse_cases m run correlationId .permissionResponse
        input.timedOut with h | ⟨aborted, h⟩ | h | ⟨message, tracker, h, hresponds⟩
    all_goals rw [h]; dsimp only
    · exact .waits hdoing
    · exact .work aborted hdoing (.giveUp _ ⟨rfl, rfl, rfl⟩ id)
    · exact .free rfl rfl trivial
    · split_ifs with hdenies
      · exact .work m.aborted hdoing
          (.giveUp _ ⟨rfl, rfl, rfl⟩ fun h ↦ (hresponds.addressed h).1)
      · exact .work m.aborted hdoing (.granted hresponds (Bool.eq_false_iff.mpr hdenies))
  | finishing result =>
    rw [workStep]
    cases h : TaskGraph.complete input.now (teammateActor m.member) run.db taskId with
    | mk answer db' =>
      cases answer with
      | error e => exact .dies (TaskDb.transact_eq_error h)
      | ok r => exact .complete hdoing h

/-- **What a move of a member can do.** -/
theorem memberMove_memberStep (input : StepInput) (m : Member) (run : TeamRun) :
    MemberMove input m run (memberStep input m run) := by
  rw [memberStep]
  cases hdoing : m.doing with
  | polling =>
    dsimp only
    split_ifs <;> exact .free rfl rfl trivial
  | listing => exact .scan
  | idling =>
    dsimp only
    split_ifs <;> exact .free rfl rfl trivial
  | leaving => exact .leave
  | stopped => exact .free rfl rfl (by rw [hdoing]; exact trivial)
  | crashed => exact .free rfl rfl (by rw [hdoing]; exact trivial)
  | opening id => exact .opened hdoing
  | working id subject stage => exact memberMove_workStep hdoing
  | starting id =>
    dsimp only
    cases h : TaskGraph.start input.now (teammateActor m.member) run.db id with
    | mk answer db' =>
      cases answer with
      | error e => exact .dies (TaskGraph.start_error h)
      | ok r => exact .start hdoing h
  | claiming tasks =>
    cases tasks with
    | nil => exact .free rfl rfl trivial
    | cons task tasks =>
      dsimp only
      cases h : TaskGraph.claim input.now (teammateActor m.member) run.db task.id m.member with
      | mk answer db' =>
        rcases answer with e | ⟨won | lost, records⟩
        · exact .dies (TaskGraph.claim_error h)
        · exact .won hdoing h
        · rcases TaskGraph.claim_ok h with ⟨-, hsame, -⟩ | ⟨-, ⟨_, hwon, -⟩, -⟩
          · subst hsame
            exact .lost hdoing
          · cases hwon
  | releasing tasks =>
    cases tasks with
    | nil => exact .free rfl rfl trivial
    | cons task tasks =>
      dsimp only
      cases h : TaskGraph.release input.now (teammateActor m.member) run.db task.id with
      | mk answer db' =>
        cases answer with
        | error e => exact .dies (TaskGraph.release_error h)
        | ok r => exact .release hdoing h

theorem MemberMove.member {r : Member × TeamRun} (h : MemberMove input m run r) :
    r.1.member = m.member := by
  cases h with
  | free hname => exact hname
  | _ => rfl

/-- The lead and the other members go on as they are. -/
theorem MemberMove.others {r : Member × TeamRun} (h : MemberMove input m run r) :
    r.2.members = run.members ∧ r.2.lead = run.lead := by
  cases h with
  | work aborted hdoing h => cases h <;> exact ⟨rfl, rfl⟩
  | _ => exact ⟨rfl, rfl⟩

/-! ## The lead, and what happens to the processes -/

/-- A member that goes on as it is, or is dead. -/
def SameOrDead (m m' : Member) : Prop :=
  m'.member = m.member ∧ m'.tracker = m.tracker ∧ (m'.doing = m.doing ∨ m'.doing = .crashed)

theorem sameOrDead_kill (m : Member) : SameOrDead m m.kill := by
  rw [Member.kill]
  split
  · exact ⟨rfl, rfl, .inl rfl⟩
  · exact ⟨rfl, rfl, .inr rfl⟩

/-- The tasks are created and the members launched. -/
def LeadPhase.Later : LeadPhase → Prop
  | .creating _ | .launching _ => False
  | _ => True

/-- The lead goes on, and creates and launches no more. -/
structure Lead.Proceeds (lead lead' : Lead) : Prop where
  createdIds : lead'.createdIds = lead.createdIds
  drawn : lead.drawn ≤ lead'.drawn
  phase : lead' = lead ∨ lead'.phase.Later

theorem Lead.Proceeds.refl (lead : Lead) : lead.Proceeds lead := ⟨rfl, le_rfl, .inl rfl⟩

/-- One move of the lead, or the death of a process. -/
inductive LeadMove (ids : IdSource) (size : ℕ) (run : TeamRun) : TeamRun → Prop
  /-- The lead goes on, and may post something. -/
  | serve {lead : Lead} {bus : List BusEnvelope} (hlead : run.lead.Proceeds lead)
      (hbus : run.bus ⊆ bus) : LeadMove ids size run { run with lead, bus }
  | create {spec : TaskSpec} {todo : List TaskSpec} {now : ℕ → ℤ}
      {r : Task × List TaskEventRecord} {db : TaskDb}
      (hphase : run.lead.phase = .creating (spec :: todo))
      (h : TaskGraph.create now leadActor run.db (createInput run.lead.createdIds spec) =
        (.ok r, db)) :
    LeadMove ids size run
      { run with
        db
        lead :=
          { run.lead with
            phase := .creating todo
            createdIds := run.lead.createdIds ++ [r.1.id] } }
  | created (hphase : run.lead.phase = .creating []) :
    LeadMove ids size run { run with lead := { run.lead with phase := .launching size } }
  | launch {left : ℕ} (hphase : run.lead.phase = .launching (left + 1)) :
    LeadMove ids size run
      { run with
        lead := { run.lead with phase := .launching left, drawn := run.lead.drawn + 5 }
        members := run.members ++ [.fresh (ids.next run.lead.drawn "mem")] }
  | lose {lead : Lead} {members : List Member} (hlead : run.lead.Proceeds lead)
      (hlength : members.length = run.members.length)
      (hmembers : ∀ (k : ℕ) (m' : Member), members[k]? = some m' →
        ∃ m, run.members[k]? = some m ∧ SameOrDead m m') :
    LeadMove ids size run { run with lead, members }

variable {ids : IdSource} {size : ℕ}

theorem LeadMove.same : LeadMove ids size run run := .serve (.refl _) (List.Subset.refl _)

theorem leadMove_create (now : ℕ → ℤ) : LeadMove ids size run (leadCreate size now run) := by
  rw [leadCreate]
  split
  · next hphase => exact .created hphase
  · next hphase =>
    split
    · next heq =>
      obtain rfl := TaskGraph.create_error heq
      exact .serve ⟨rfl, le_rfl, .inr trivial⟩ (List.Subset.refl _)
    · next heq => exact .create hphase heq
  · exact .same

theorem leadMove_launch : LeadMove ids size run (leadLaunch ids run) := by
  rw [leadLaunch]
  split
  · exact .serve ⟨rfl, le_rfl, .inr trivial⟩ (List.Subset.refl _)
  · next hphase => exact .launch hphase
  · exact .same

/-- While it serves, the lead draws identifiers. -/
theorem proceeds_serving {lead : Lead} (hphase : run.lead.phase = .serving)
    (hsame : lead.phase = run.lead.phase) (hcreated : lead.createdIds = run.lead.createdIds)
    (hdrawn : run.lead.drawn ≤ lead.drawn) : run.lead.Proceeds lead :=
  ⟨hcreated, hdrawn, .inr (by rw [hsame, hphase]; exact trivial)⟩

theorem leadMove_answer (answer : BusEnvelope → Option ProtocolMessage) :
    LeadMove ids size run (leadAnswer ids answer run) := by
  rw [leadAnswer]
  split
  · next hphase =>
    split
    · exact .same
    · dsimp only
      split
      · exact .serve (proceeds_serving hphase rfl rfl le_rfl) (List.Subset.refl _)
      · split
        · split
          · exact .serve (proceeds_serving hphase rfl rfl le_rfl) (List.Subset.refl _)
          · exact .serve (proceeds_serving hphase rfl rfl (Nat.le_add_right _ 4))
              (List.subset_append_left _ _)
        · exact .serve (proceeds_serving hphase rfl rfl (Nat.le_add_right _ 4))
            (List.subset_append_left _ _)
  · exact .same

theorem leadMove_survey : LeadMove ids size run (leadSurvey run) := by
  rw [leadSurvey]
  split
  · split
    · exact .serve ⟨rfl, le_rfl, .inr trivial⟩ (List.Subset.refl _)
    · exact .same
  · exact .same

theorem leadMove_notify : LeadMove ids size run (leadNotify ids run) := by
  rw [leadNotify]
  split
  · exact .serve ⟨rfl, le_rfl, .inr trivial⟩ (List.Subset.refl _)
  · exact .serve ⟨rfl, Nat.le_add_right _ 5, .inr trivial⟩ (List.subset_append_left _ _)
  · exact .same

theorem leadMove_exit : LeadMove ids size run (leadExit run) := by
  rw [leadExit]
  split
  · refine .lose ⟨rfl, le_rfl, .inr trivial⟩ (List.length_map _) fun k m' hk ↦ ?_
    obtain ⟨m, hm, rfl⟩ := Option.map_eq_some_iff.mp ((List.getElem?_map ..).symm.trans hk)
    exact ⟨m, hm, sameOrDead_kill m⟩
  · exact .same

theorem leadMove_crash (k : ℕ) :
    LeadMove ids size run { run with members := run.members.modify k Member.kill } := by
  refine .lose (.refl _) (List.length_modify ..) fun j m' hj ↦ ?_
  obtain ⟨m, hm, rfl⟩ := Option.map_eq_some_iff.mp ((List.getElem?_modify ..).symm.trans hj)
  refine ⟨m, hm, ?_⟩
  split_ifs
  · exact sameOrDead_kill m
  · exact ⟨rfl, rfl, .inl rfl⟩

/-- **What a move can do**: one of the members takes a step, or the lead does, or a process dies. -/
theorem move_cases (setup : TeamSetup) (run : TeamRun) (move : TeamMove) :
    (∃ k input m r, move = .step k input ∧ run.members[k]? = some m ∧ MemberMove input m run r ∧
      run.move setup move = { r.2 with members := run.members.set k r.1 }) ∨
      LeadMove setup.ids setup.members run (run.move setup move) := by
  cases move with
  | create now => exact .inr (leadMove_create now)
  | launch => exact .inr leadMove_launch
  | answer => exact .inr (leadMove_answer _)
  | survey => exact .inr leadMove_survey
  | notify => exact .inr leadMove_notify
  | exit => exact .inr leadMove_exit
  | crashLead => exact .inr (.serve ⟨rfl, le_rfl, .inr trivial⟩ (List.Subset.refl _))
  | crash k => exact .inr (leadMove_crash k)
  | step k input =>
    rw [TeamRun.move]
    split
    · exact .inr .same
    · next m hm =>
      have hmove := memberMove_memberStep input m run
      refine .inl ⟨k, input, m, memberStep input m run, rfl, hm, hmove, ?_⟩
      exact congrArg (fun members : List Member ↦
        { (memberStep input m run).2 with members := members.set k (memberStep input m run).1 })
        hmove.others.1

/-- Who is there after a member has moved. -/
theorem getElem?_set_cases {α : Type} {l : List α} {k j : ℕ} {x y : α}
    (h : (l.set k x)[j]? = some y) : j = k ∧ y = x ∨ j ≠ k ∧ l[j]? = some y := by
  rw [List.getElem?_set] at h
  split_ifs at h with heq hlt
  · exact .inl ⟨heq.symm, (Option.some.inj h).symm⟩
  · exact .inr ⟨fun hjk ↦ heq hjk.symm, h⟩

/-- Who is there after one was launched. -/
theorem getElem?_concat {α : Type} {l : List α} {x y : α} {k : ℕ} (h : (l ++ [x])[k]? = some y) :
    l[k]? = some y ∨ k = l.length ∧ y = x := by
  obtain ⟨hlt, -⟩ := List.getElem?_eq_some_iff.mp h
  rw [List.length_append, List.length_singleton] at hlt
  rcases Nat.lt_succ_iff_lt_or_eq.mp hlt with hlt | rfl
  · rw [List.getElem?_append_left hlt] at h
    exact .inl h
  · rw [List.getElem?_concat_length] at h
    exact .inr ⟨rfl, (Option.some.inj h).symm⟩

end QwenHarness.Cli
