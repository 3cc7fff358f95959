import QwenHarness.Codec.Delimited
import QwenHarness.Scheduler.Poll
import QwenHarness.Storage.Ledger
import QwenHarness.Tools.Unattended

/-!
# One poll of the supervisor

The scheduler reports every job that is due, and has by then recorded all of them as fired. The
supervisor then fires them one after the other: it asks the ledger, announces the side effect, marks
it as started, runs the command and settles it. Between any two of these the process can stop, and a
command or the store can throw, which ends the poll.

What a job shows in the ledger when the poll ends is thus decided by how far the poll came. A job
that was reported and not started shows what it showed before.
-/

namespace QwenHarness.Cli

open EventStore (AppendInput Draw append OutcomeShows RowUnder)
open Policy (ManagedPolicy)
open Scheduler
open Tools (ShellWorkload Unattended cronFireKey schedulerActor)

/-! ## What a poll is given -/

/-- The command that is encoded in the tag of a workload, if there is one. -/
structure Workload where
  command : Option String
  argv : List String
deriving DecidableEq, Repr

/-- The context of a poll. The search of a cron expression, the JSON of a record and the decoding of
a tag are parameters. -/
structure Supervision (ε σ : Type) where
  redactor : Redactor
  tools : Unattended ε σ
  lastFire : String → ℤ → ℤ → ℤ → Option (Option ℤ)
  marker : SchedulerRecord → String
  decodeWorkload : String → Workload
  permissionProfile : PermissionProfile
  /-- The turn and the correlation of the records of the scheduler. -/
  turnId : String
  correlationId : String
  now : ℤ
  managed : ManagedPolicy
  workspaceRoot : String

/-- What a step may draw: ids, the clock and the draw of an append. -/
structure Drawn where
  draw : Draw
  sideEffectId : String
  /-- The second id in the key of a record of the scheduler. -/
  keyId : String
  turnId : String
  correlationId : String
  clock : ℤ
  /-- The clock in base 36, with a prefix. -/
  callId : String
deriving Repr

/-- A job that is being fired. -/
structure Firing where
  due : DueResult
  turnId : String
  correlationId : String
  sideEffectId : String
deriving DecidableEq, Repr

structure FireOutcome where
  jobId : String
  threadId : String
  scheduledInstant : ℤ
  firedAt : ℤ
  /-- The profile the command ran under. -/
  effectiveProfile : PermissionProfile
  ok : Bool
  detail : Option String
  /-- Not so if the ledger had recorded the firing before. -/
  executed : Bool
deriving DecidableEq, Repr

/-- The key of a due job in the ledger. -/
def fireKey (d : DueResult) : String := cronFireKey d.job.id d.scheduledInstant

def Firing.input (f : Firing) (payload : EventPayload) : AppendInput where
  threadId := f.due.job.threadId
  payload := payload
  actor := schedulerActor
  correlationId := f.correlationId
  causationId := none
  turnId := some f.turnId
  itemId := none
  permissionProfile := f.due.authority.profile

def Firing.intent (f : Firing) : SideEffectIntent where
  sideEffectId := f.sideEffectId
  idempotencyKey := fireKey f.due
  kind := .other
  destructive := false
  normalizedAction := "cron-fire:" ++ f.due.job.id ++ ":" ++ f.due.job.workloadTag

def fireOutcome (d : DueResult) (ok : Bool) (detail : Option String) (executed : Bool) :
    FireOutcome :=
  ⟨d.job.id, d.job.threadId, d.scheduledInstant, d.firedAt, d.authority.profile, ok, detail,
    executed⟩

/-- The thread that holds the records of the scheduler. -/
def schedulerThreadId : String := "thr_cron_scheduler0"

/-- Where a poll is. -/
inductive Stage where
  /-- These jobs are still to be looked at. -/
  | polling (next : List JobState)
  /-- These are still to be fired. -/
  | firing (todo : List DueResult)
  /-- The side effect is announced. -/
  | intended (f : Firing) (todo : List DueResult)
  | started (f : Firing) (todo : List DueResult)
  /-- The command has ended. -/
  | ran (f : Firing) (ok : Bool) (detail : Option String) (todo : List DueResult)
  /-- An append of a firing threw, before its side effect was started or after. -/
  | refused (d : DueResult) (begun : Bool) (todo : List DueResult)
  /-- The command of a job threw. -/
  | threw (d : DueResult) (todo : List DueResult)

/-- The state of a poll. -/
structure Supervisor (σ : Type) where
  /-- The jobs that were looked at. -/
  jobs : List JobState
  /-- What the poll wrote to the durable log of the scheduler. -/
  log : List SchedulerRecord
  /-- What the scheduler reported. -/
  due : List DueResult
  store : EventStore
  world : σ
  fired : List FireOutcome
  stage : Stage

def Supervisor.start {σ : Type} (scheduler : JobMap) (store : EventStore) (world : σ) :
    Supervisor σ :=
  ⟨[], [], [], store, world, [], .polling scheduler.jobs.rows⟩

/-! ## Steps -/

namespace Supervision

variable {ε σ : Type} (sup : Supervision ε σ) (s : Supervisor σ) (x : Drawn)

/-- A record of the scheduler is an intent on a thread of its own. -/
def recordInput (record : SchedulerRecord) : AppendInput where
  threadId := schedulerThreadId
  payload := .sideEffectIntent
    { sideEffectId := x.sideEffectId
      idempotencyKey := "scheduler.v1:" ++ x.keyId
      kind := .other
      destructive := false
      normalizedAction := sup.marker record }
  actor := schedulerActor
  correlationId := sup.correlationId
  causationId := none
  turnId := some sup.turnId
  itemId := none
  permissionProfile := sup.permissionProfile

/-- The scheduler writes its record of a job and reports it. A record that is not written takes the
report with it, and the poll goes on. -/
def report (looked : Evaluation) (next : List JobState) : Supervisor σ :=
  match looked.record with
  | none =>
    { s with
      jobs := s.jobs ++ [looked.state]
      due := s.due ++ looked.due.toList
      stage := .polling next }
  | some record =>
    match append sup.redactor (sup.recordInput x record) x.draw s.store with
    | (.ok _, store) =>
      { s with
        jobs := s.jobs ++ [looked.state]
        log := s.log ++ [record]
        due := s.due ++ looked.due.toList
        store
        stage := .polling next }
    | (.error _, _) => { s with jobs := s.jobs ++ [looked.state], stage := .polling next }

/-- The scheduler looks at a job. -/
def look (job : JobState) (next : List JobState) : Supervisor σ :=
  sup.report s x (evaluate sup.lastFire sup.now false sup.managed job) next

/-- The ledger is asked, and the side effect is announced. -/
def announce (d : DueResult) (todo : List DueResult) : Supervisor σ :=
  if (s.store.mayExecute (fireKey d)).allowed then
    let f : Firing := ⟨d, x.turnId, x.correlationId, x.sideEffectId⟩
    match append sup.redactor (f.input (.sideEffectIntent f.intent)) x.draw s.store with
    | (.ok _, store) => { s with store, stage := .intended f todo }
    | (.error _, _) => { s with stage := .refused d false todo }
  else
    { s with
      fired := s.fired ++ [fireOutcome d true (some "already fired") false]
      stage := .firing todo }

def markStarted (f : Firing) (todo : List DueResult) : Supervisor σ :=
  match append sup.redactor (f.input (.sideEffectStarted f.sideEffectId)) x.draw s.store with
  | (.ok _, store) => { s with store, stage := .started f todo }
  | (.error _, _) => { s with stage := .refused f.due false todo }

/-- The command is run under the authority of the firing, if there is one. -/
def runWorkload (f : Firing) (todo : List DueResult) : Supervisor σ :=
  let workload := sup.decodeWorkload f.due.job.workloadTag
  match workload.command with
  | none => { s with stage := .ran f true none todo }
  | some command =>
    match sup.tools.runSandboxedShell x.callId x.clock
        ⟨command, workload.argv, sup.workspaceRoot, f.due.authority⟩ s.world with
    | (.ok result, world) => { s with world, stage := .ran f result.ok result.reason todo }
    | (.error _, world) => { s with world, stage := .threw f.due todo }

def settle (f : Firing) (ok : Bool) (detail : Option String) (todo : List DueResult) :
    Supervisor σ :=
  match append sup.redactor (f.input (.sideEffectSettled f.sideEffectId
      (if ok then .knownComplete else .knownFailed) none)) x.draw s.store with
  | (.ok _, store) =>
    { s with
      store
      fired := s.fired ++ [fireOutcome f.due ok detail true]
      stage := .firing todo }
  | (.error _, _) => { s with stage := .refused f.due true todo }

/-- One step of `runSupervisor`. A crash is a run that goes no further. -/
def step : Supervisor σ :=
  match s.stage with
  | .polling [] => { s with stage := .firing s.due }
  | .polling (job :: next) => sup.look s x job next
  | .firing [] => s
  | .firing (d :: todo) => sup.announce s x d todo
  | .intended f todo => sup.markStarted s x f todo
  | .started f todo => sup.runWorkload s x f todo
  | .ran f ok detail todo => sup.settle s x f ok detail todo
  | .refused _ _ _ => s
  | .threw _ _ => s

def run (xs : List Drawn) : Supervisor σ := xs.foldl sup.step s

end Supervision

/-! ## Keys -/

/-- A number is written with digits and a sign. -/
theorem not_mem_toString {c : Char} (hdigit : c.isDigit = false) (hsign : c ≠ '-') (n : ℤ) :
    c ∉ (toString n).toList := by
  have hnat : ∀ n : ℕ, c ∉ n.repr.toList := by
    intro n hmem
    rw [Nat.toList_repr] at hmem
    have hc := Nat.isDigit_of_mem_toDigits (by decide) (by decide) hmem
    rw [hdigit] at hc
    cases hc
  cases n with
  | ofNat n => exact hnat n
  | negSucc n =>
    rw [show toString (Int.negSucc n) = "-" ++ (n + 1).repr from rfl, String.toList_append,
      List.mem_append, not_or]
    exact ⟨by simpa using hsign, hnat _⟩

/-- A key names its job. -/
theorem cronFireKey_inj {id id' : String} {t t' : ℤ} (h : cronFireKey id t = cronFireKey id' t') :
    id = id' := by
  have hsplit : ∀ (id : String) (t : ℤ), (cronFireKey id t).toList.reverse =
      (toString t).toList.reverse ++ ':' :: ("cron.v1:".toList ++ id.toList).reverse := by
    intro id t
    rw [cronFireKey, String.toList_append, String.toList_append, String.toList_append,
      List.reverse_append, List.reverse_append]
    rfl
  have hrev := congrArg (fun k ↦ k.toList.reverse) h
  simp only [hsplit] at hrev
  -- The instant ends at the last colon.
  have hcolon : ∀ t : ℤ, ∀ c ∈ (toString t).toList.reverse, c ≠ ':' := by
    intro t c hc he
    exact not_mem_toString rfl (by decide) t (he ▸ List.mem_reverse.mp hc)
  obtain ⟨-, hrest⟩ := Codec.append_inj_of_forall (hcolon t) (hcolon t') (by simp) (by simp) hrev
  have hid := List.reverse_injective (List.cons.inj hrest).2
  exact String.toList_injective (List.append_cancel_left hid)

/-- A key of a record is not a key of a job. -/
theorem recordKey_ne_cronFireKey {keyId id : String} {t : ℤ} :
    "scheduler.v1:" ++ keyId ≠ cronFireKey id t := by
  intro h
  have hhead := congrArg (fun k ↦ k.toList.head?) h
  simp [cronFireKey] at hhead

/-- A key of a job without a bracket is not a key of the records, nor of another job, and redaction
does not make it one. -/
theorem redact_ne_cronFireKey {r : Redactor} {k id : String} {t : ℤ} (hid : '[' ∉ id.toList)
    (hk : k ≠ cronFireKey id t) : r.redact k ≠ cronFireKey id t := by
  intro h
  refine hk (r.redact_eq_of_clean h ?_)
  have hcron : '[' ∉ "cron.v1:".toList := by decide
  have hsep : '[' ∉ ":".toList := by decide
  have hinstant := not_mem_toString (c := '[') rfl (by decide) t
  simp only [cronFireKey, String.toList_append, List.mem_append, hcron, hid, hsep, hinstant,
    or_self, not_false_iff]

/-! ## What is left when a poll ends -/

namespace Supervisor

variable {σ : Type} (s : Supervisor σ)

/-- The jobs that were not looked at. -/
def unpolled : List JobState :=
  match s.stage with
  | .polling next => next
  | _ => []

/-- The jobs that were reported and whose firing has not begun. -/
def pending : List DueResult :=
  match s.stage with
  | .polling _ => s.due
  | .firing todo => todo
  | .intended _ todo => todo
  | .started _ todo => todo
  | .ran _ _ _ todo => todo
  | .refused _ _ todo => todo
  | .threw _ todo => todo

/-- The jobs that were reported and whose side effect is not started: the ones that are pending, and
one whose firing has only begun. -/
def waiting : List DueResult :=
  match s.stage with
  | .intended f todo => f.due :: todo
  | .refused d false todo => d :: todo
  | _ => s.pending

theorem pending_subset_waiting : s.pending ⊆ s.waiting := by
  unfold waiting
  cases hstage : s.stage with
  | intended f todo =>
    rw [pending, hstage]
    exact List.subset_cons_self _ _
  | refused d begun todo =>
    rw [pending, hstage]
    cases begun with
    | false => exact List.subset_cons_self _ _
    | true => exact List.Subset.refl _
  | _ => exact List.Subset.refl _

/-- The firing that is going on. -/
def current : Option Firing :=
  match s.stage with
  | .intended f _ => some f
  | .started f _ => some f
  | .ran f _ _ _ => some f
  | _ => none

/-- **What a poll owes.** Every job that is recorded as fired shows an outcome under its key. And if
the command of one throws, no job that is left would have been fired. -/
structure Accounted : Prop where
  shows : ∀ d ∈ s.due, d.record ∈ s.log → s.store.OutcomeShows (fireKey d)
  isolated : ∀ d todo, s.stage = .threw d todo → ∀ d' ∈ todo,
    (s.store.mayExecute (fireKey d')).allowed = false

/-- The poll came far enough. The ledger is the one from before the poll. -/
structure Covered (r : Redactor) (store : EventStore) : Prop where
  shows : ∀ d ∈ s.due, d.job.durable = true →
    store.OutcomeShows (fireKey d) ∨ (d ∉ s.waiting ∧ r.redact (fireKey d) = fireKey d)
  isolated : ∀ d todo, s.stage = .threw d todo → ∀ d' ∈ todo,
    (store.mayExecute (fireKey d')).allowed = false

/-! ## What a step keeps -/

/-- What was looked at, reported and recorded is about the jobs of the scheduler. -/
structure Polled (scheduler : JobMap) (s : Supervisor σ) : Prop where
  jobs : (s.jobs ++ s.unpolled).map JobState.job = scheduler.jobs.rows.map JobState.job
  reported : (s.due.map DueResult.job).Sublist (s.jobs.map JobState.job)
  logged : ∀ d ∈ s.due, d.job.durable = true → d.record ∈ s.log
  durable : ∀ record ∈ s.log, ∃ state ∈ s.jobs,
    state.job.id = record.id ∧ state.job.durable = true

/-- How the ledger has changed since the poll began. The firing of `passed` has begun, the side
effects of `begun` were started. -/
structure Kept (r : Redactor) (store : EventStore) (passed begun : List DueResult)
    (s : Supervisor σ) : Prop where
  split : s.due = passed ++ s.pending
  mem_passed : ∀ d ∈ begun, d ∈ passed ∧ d ∉ s.waiting
  mem_begun : ∀ d ∈ passed, d ∈ s.waiting ∨ d ∈ begun ∨ s.store.OutcomeShows (fireKey d)
  shows : ∀ k, s.store.OutcomeShows k ↔
    store.OutcomeShows k ∨ ∃ d ∈ begun, r.redact (fireKey d) = k
  guard : ∀ id instant, '[' ∉ id.toList → (∀ d ∈ passed, d.job.id ≠ id) →
    (s.store.mayExecute (cronFireKey id instant)).allowed =
      (store.mayExecute (cronFireKey id instant)).allowed
  row : ∀ f ∈ s.current, f.due ∈ passed ∧ (f.due ∈ s.waiting ∨ f.due ∈ begun) ∧
    s.store.RowUnder f.sideEffectId (r.redact (fireKey f.due))

section Polled

variable {scheduler : JobMap} {s : Supervisor σ}

theorem polled_start (scheduler : JobMap) (store : EventStore) (world : σ) :
    Polled scheduler (start scheduler store world) where
  jobs := rfl
  reported := List.Sublist.refl _
  logged _ hd := absurd hd List.not_mem_nil
  durable _ h := absurd h List.not_mem_nil

theorem Polled.sublist (h : Polled scheduler s) :
    (s.due.map DueResult.job).Sublist (scheduler.jobs.rows.map JobState.job) := by
  rw [← h.jobs, List.map_append]
  exact h.reported.trans (List.sublist_append_left _ _)

/-- No job is reported twice. -/
theorem Polled.nodup (h : Polled scheduler s) : (s.due.map fun d ↦ d.job.id).Nodup := by
  have hsub := h.sublist.map CronJob.id
  rw [List.map_map, List.map_map] at hsub
  exact scheduler.jobs.nodup.sublist hsub

theorem Polled.eq_of_id_eq (h : Polled scheduler s) {d d' : DueResult} (hd : d ∈ s.due)
    (hd' : d' ∈ s.due) (hid : d.job.id = d'.job.id) : d = d' :=
  List.inj_on_of_nodup_map h.nodup hd hd' hid

/-- The id of a job that is reported holds no bracket. -/
theorem Polled.clean (h : Polled scheduler s) {d : DueResult} (hd : d ∈ s.due) :
    '[' ∉ d.job.id.toList := by
  obtain ⟨state, hstate, hjob⟩ := List.mem_map.mp (h.sublist.subset (List.mem_map_of_mem hd))
  rw [← hjob]
  exact clean_of_isId (scheduler.named state hstate)

/-- Of the jobs that are reported, the durable ones are recorded. -/
theorem Polled.record_mem_log_iff (h : Polled scheduler s) {d : DueResult} (hd : d ∈ s.due) :
    d.record ∈ s.log ↔ d.job.durable = true := by
  refine ⟨fun hrec ↦ ?_, h.logged d hd⟩
  obtain ⟨state, hstate, hid, hdurable⟩ := h.durable _ hrec
  obtain ⟨state', hstate', hjob⟩ :=
    List.mem_map.mp (h.reported.subset (List.mem_map_of_mem hd))
  have hnodup : (s.jobs.map fun state ↦ state.job.id).Nodup := by
    have hall := scheduler.jobs.nodup
    have hids := congrArg (List.map CronJob.id) h.jobs
    rw [List.map_map, List.map_map, List.map_append] at hids
    exact (List.nodup_append.mp (hids ▸ hall)).1
  have hsame : state = state' := by
    refine List.inj_on_of_nodup_map hnodup hstate hstate' ?_
    rw [hid, DueResult.record, id_firedRecord, hjob]
  rw [← hjob, ← hsame]
  exact hdurable

end Polled

end Supervisor

/-! ## Looking at a job -/

namespace Supervision

open Supervisor

variable {ε σ : Type} (sup : Supervision ε σ) {scheduler : JobMap} {store : EventStore}
  {s : Supervisor σ} (x : Drawn) {passed begun : List DueResult}

section Look

variable (looked : Evaluation) (job : JobState) (next : List JobState)

/-- What is written and reported of a job. -/
theorem report_spec : (sup.report s x looked next).stage = .polling next ∧
    (sup.report s x looked next).jobs = s.jobs ++ [looked.state] ∧
    ((sup.report s x looked next).due = s.due ++ looked.due.toList ∧
        (sup.report s x looked next).log = s.log ++ looked.record.toList ∨
      (sup.report s x looked next).due = s.due ∧ (sup.report s x looked next).log = s.log) ∧
    ((sup.report s x looked next).store = s.store ∨ ∃ record e,
      append sup.redactor (sup.recordInput x record) x.draw s.store =
        (.ok e, (sup.report s x looked next).store)) := by
  obtain ⟨state, record, due⟩ := looked
  unfold report
  cases record with
  | none => exact ⟨rfl, rfl, .inl ⟨rfl, (List.append_nil _).symm⟩, .inl rfl⟩
  | some record =>
    dsimp only
    cases happ : append sup.redactor (sup.recordInput x record) x.draw s.store with
    | mk answer store' =>
      cases answer with
      | ok e => exact ⟨rfl, rfl, .inl ⟨rfl, rfl⟩, .inr ⟨record, e, happ⟩⟩
      | error err => exact ⟨rfl, rfl, .inr ⟨rfl, rfl⟩, .inl rfl⟩

theorem stage_look : (sup.look s x job next).stage = .polling next :=
  (sup.report_spec x _ next).1

theorem jobs_look : (sup.look s x job next).jobs =
    s.jobs ++ [(evaluate sup.lastFire sup.now false sup.managed job).state] :=
  (sup.report_spec x _ next).2.1

/-- The ledger has at most one row more, of a record. -/
theorem store_look : (sup.look s x job next).store = s.store ∨ ∃ record e,
    append sup.redactor (sup.recordInput x record) x.draw s.store =
      (.ok e, (sup.look s x job next).store) :=
  (sup.report_spec x _ next).2.2.2

/-- The job is reported or not. If it is reported and durable, it is recorded. -/
theorem look_spec : ∃ D L, (sup.look s x job next).due = s.due ++ D ∧
    (sup.look s x job next).log = s.log ++ L ∧ (D.map DueResult.job).Sublist [job.job] ∧
    (∀ d ∈ D, d.job.durable = true → d.record ∈ L) ∧
    ∀ record ∈ L, job.job.id = record.id ∧ job.job.durable = true := by
  rcases (sup.report_spec (s := s) x (evaluate sup.lastFire sup.now false sup.managed job)
    next).2.2.1 with ⟨hdue, hlog⟩ | ⟨hdue, hlog⟩
  · refine ⟨_, _, hdue, hlog, ?_, fun d hd hdurable ↦ ?_, fun record h ↦ ?_⟩
    · cases he : (evaluate sup.lastFire sup.now false sup.managed job).due with
      | none => exact List.nil_sublist _
      | some d => rw [Option.toList_some, List.map_singleton, job_of_due he]
    · rw [record_of_due (Option.mem_toList.mp hd), persist_eq_some_iff.mpr ⟨hdurable, rfl⟩]
      exact List.mem_singleton_self _
    · obtain ⟨hid, hdurable⟩ := id_of_record (Option.mem_toList.mp h)
      exact ⟨hid.symm, hdurable⟩
  · exact ⟨[], [], by rw [List.append_nil]; exact hdue, by rw [List.append_nil]; exact hlog,
      List.nil_sublist _, fun d hd ↦ absurd hd List.not_mem_nil,
      fun record h ↦ absurd h List.not_mem_nil⟩

variable {job next}

theorem polled_look (h : Polled scheduler s) (hstage : s.stage = .polling (job :: next)) :
    Polled scheduler (sup.look s x job next) := by
  obtain ⟨D, L, hdue, hlog, hsub, hrec, hid⟩ := sup.look_spec (s := s) x job next
  have hunpolled : s.unpolled = job :: next := by rw [unpolled, hstage]
  have hjob := @job_evaluate sup.lastFire sup.now false sup.managed job
  refine ⟨?_, ?_, ?_, ?_⟩
  · have hjobs := h.jobs
    rw [hunpolled, List.map_append, List.map_cons] at hjobs
    rw [unpolled, stage_look, jobs_look, List.map_append, List.map_append, List.map_singleton, hjob,
      ← hjobs, List.append_assoc]
    rfl
  · rw [hdue, jobs_look, List.map_append, List.map_append, List.map_singleton, hjob]
    exact h.reported.append hsub
  · intro d hd hdurable
    rw [hlog]
    rcases List.mem_append.mp (hdue ▸ hd) with hd | hd
    · exact List.mem_append_left _ (h.logged d hd hdurable)
    · exact List.mem_append_right _ (hrec d hd hdurable)
  · intro record hrecord
    rw [jobs_look]
    rcases List.mem_append.mp (hlog ▸ hrecord) with hrecord | hrecord
    · obtain ⟨state, hstate, hstate'⟩ := h.durable record hrecord
      exact ⟨state, List.mem_append_left _ hstate, hstate'⟩
    · refine ⟨_, List.mem_append_right _ (List.mem_singleton_self _), ?_⟩
      rw [hjob]
      exact hid record hrecord

/-- A record of the scheduler is not under a key of a job. -/
theorem kept_look (h : Kept sup.redactor store passed begun s)
    (hstage : s.stage = .polling (job :: next)) :
    Kept sup.redactor store passed begun (sup.look s x job next) := by
  have hpending : s.pending = s.due := by rw [pending, hstage]
  have hpassed : passed = [] := by
    have hsplit := h.split
    rwa [hpending, List.self_eq_append_left] at hsplit
  subst hpassed
  have hbegun : begun = [] :=
    List.eq_nil_iff_forall_not_mem.mpr fun d hd ↦ absurd (h.mem_passed d hd).1 List.not_mem_nil
  subst hbegun
  have hpending' : (sup.look s x job next).pending = (sup.look s x job next).due := by
    rw [pending, stage_look]
  have hcurrent : (sup.look s x job next).current = none := by rw [current, stage_look]
  refine ⟨hpending'.symm, fun d hd ↦ absurd hd List.not_mem_nil,
    fun d hd ↦ absurd hd List.not_mem_nil, fun k ↦ ?_, fun id instant hid hne ↦ ?_, ?_⟩
  · rcases sup.store_look (s := s) x job next with hstore | ⟨record, e, happ⟩
    · rw [hstore]
      exact h.shows k
    · exact (EventStore.outcomeShows_intent happ rfl).trans (h.shows k)
  · rcases sup.store_look (s := s) x job next with hstore | ⟨record, e, happ⟩
    · rw [hstore]
      exact h.guard id instant hid hne
    · refine (EventStore.allowed_intent happ rfl (redact_ne_cronFireKey hid ?_)).trans
        (h.guard id instant hid hne)
      exact fun hkey ↦ recordKey_ne_cronFireKey hkey
  · rw [hcurrent]
    exact fun f hf ↦ absurd hf (Option.not_mem_none f)

end Look

/-! ## Firing a job -/

section Fire

variable {f : Firing} {d : DueResult} {todo : List DueResult}

/-- A step that fires leaves alone what the scheduler did. -/
structure Fires (s s' : Supervisor σ) : Prop where
  jobs : s'.jobs = s.jobs
  due : s'.due = s.due
  log : s'.log = s.log
  unpolled : s'.unpolled = []

theorem fires_announce : Fires s (sup.announce s x d todo) := by
  unfold announce
  by_cases hallowed : (s.store.mayExecute (fireKey d)).allowed = true
  · rw [if_pos hallowed]
    dsimp only
    cases append sup.redactor _ x.draw s.store with
    | mk answer store' => cases answer <;> exact ⟨rfl, rfl, rfl, rfl⟩
  · rw [if_neg hallowed]
    exact ⟨rfl, rfl, rfl, rfl⟩

theorem fires_markStarted : Fires s (sup.markStarted s x f todo) := by
  unfold markStarted
  cases append sup.redactor _ x.draw s.store with
  | mk answer store' => cases answer <;> exact ⟨rfl, rfl, rfl, rfl⟩

theorem fires_runWorkload : Fires s (sup.runWorkload s x f todo) := by
  unfold runWorkload
  dsimp only
  cases (sup.decodeWorkload f.due.job.workloadTag).command with
  | none => exact ⟨rfl, rfl, rfl, rfl⟩
  | some command =>
    dsimp only
    cases sup.tools.runSandboxedShell x.callId x.clock _ s.world with
    | mk answer world => cases answer <;> exact ⟨rfl, rfl, rfl, rfl⟩

theorem fires_settle {ok : Bool} {detail : Option String} :
    Fires s (sup.settle s x f ok detail todo) := by
  unfold settle
  cases append sup.redactor _ x.draw s.store with
  | mk answer store' => cases answer <;> exact ⟨rfl, rfl, rfl, rfl⟩

theorem Fires.polled {s' : Supervisor σ} (hf : Fires s s') (h : Polled scheduler s)
    (hs : s.unpolled = []) : Polled scheduler s' where
  jobs := by
    rw [hf.jobs, hf.unpolled, ← hs]
    exact h.jobs
  reported := by
    rw [hf.due, hf.jobs]
    exact h.reported
  logged := by
    rw [hf.due, hf.log]
    exact h.logged
  durable := by
    rw [hf.log, hf.jobs]
    exact h.durable

/-- A step that leaves the ledger alone and begins no firing. -/
theorem kept_of_same {r : Redactor} {s' : Supervisor σ} (h : Kept r store passed begun s)
    (hdue : s'.due = s.due) (hstore : s'.store = s.store) (hpending : s'.pending = s.pending)
    (hwaiting : s'.waiting = s.waiting) (hcurrent : ∀ f ∈ s'.current, f ∈ s.current) :
    Kept r store passed begun s' where
  split := by
    rw [hdue, hpending]
    exact h.split
  mem_passed := by
    rw [hwaiting]
    exact h.mem_passed
  mem_begun := by
    rw [hwaiting, hstore]
    exact h.mem_begun
  shows := by
    rw [hstore]
    exact h.shows
  guard := by
    rw [hstore]
    exact h.guard
  row := by
    rw [hwaiting, hstore]
    exact fun f hf ↦ h.row f (hcurrent f hf)

/-- A job whose firing has begun is not pending. -/
theorem not_mem_pending {r : Redactor} (hp : Polled scheduler s)
    (h : Kept r store passed begun s) (hd : d ∈ passed) : d ∉ s.pending := by
  have hnodup := hp.nodup
  rw [h.split, List.map_append] at hnodup
  exact fun hmem ↦ (List.nodup_append.mp hnodup).2.2 _ (List.mem_map_of_mem hd) _
    (List.mem_map_of_mem hmem) rfl

/-- **Announce.** The job is passed: it was refused, and shows its outcome, or it waits. -/
theorem kept_announce (h : Kept sup.redactor store passed begun s)
    (hstage : s.stage = .firing (d :: todo)) :
    Kept sup.redactor store (passed ++ [d]) begun (sup.announce s x d todo) := by
  have hpending : s.pending = d :: todo := by rw [pending, hstage]
  have hwaiting : s.waiting = d :: todo := by rw [waiting, hstage, hpending]
  have hsplit : s.due = (passed ++ [d]) ++ todo := by
    rw [h.split, hpending, List.append_assoc]
    rfl
  have hbegun : ∀ d' ∈ begun, d' ∈ passed ++ [d] ∧ d' ∉ d :: todo := fun d' hd' ↦
    ⟨List.mem_append_left _ (h.mem_passed d' hd').1, hwaiting ▸ (h.mem_passed d' hd').2⟩
  have hpassed : ∀ d' ∈ passed ++ [d], d' ∈ d :: todo ∨ d' ∈ begun ∨
      s.store.OutcomeShows (fireKey d') := by
    intro d' hd'
    rcases List.mem_append.mp hd' with hd' | hd'
    · exact hwaiting ▸ h.mem_begun d' hd'
    · exact .inl (List.mem_singleton.mp hd' ▸ List.mem_cons_self)
  have hguard : ∀ id instant, '[' ∉ id.toList → (∀ d' ∈ passed ++ [d], d'.job.id ≠ id) →
      (s.store.mayExecute (cronFireKey id instant)).allowed =
        (store.mayExecute (cronFireKey id instant)).allowed := fun id instant hid hne ↦
    h.guard id instant hid fun d' hd' ↦ hne d' (List.mem_append_left _ hd')
  unfold announce
  by_cases hallowed : (s.store.mayExecute (fireKey d)).allowed = true
  · rw [if_pos hallowed]
    dsimp only
    cases happ : append sup.redactor _ x.draw s.store with
    | mk answer store' =>
      cases answer with
      | error err =>
        exact ⟨hsplit, hbegun, hpassed, h.shows, hguard,
          fun f hf ↦ absurd hf (Option.not_mem_none f)⟩
      | ok e =>
        have hshows : ∀ k, store'.OutcomeShows k ↔ s.store.OutcomeShows k := fun k ↦
          EventStore.outcomeShows_intent happ rfl
        refine ⟨hsplit, hbegun, ?_, fun k ↦ (hshows k).trans (h.shows k),
          fun id instant hid hne ↦ ?_, fun f hf ↦ ?_⟩
        · exact fun d' hd' ↦ (hpassed d' hd').imp_right (Or.imp_right (hshows _).mpr)
        · have hkey : fireKey d ≠ cronFireKey id instant := fun hkey ↦
            hne d (List.mem_append_right _ (List.mem_singleton_self d)) (cronFireKey_inj hkey)
          exact (EventStore.allowed_intent happ rfl (redact_ne_cronFireKey hid hkey)).trans
            (hguard id instant hid hne)
        · rw [← Option.some.inj hf]
          exact ⟨List.mem_append_right _ (List.mem_singleton_self d), .inl List.mem_cons_self,
            EventStore.rowUnder_intent happ rfl⟩
  · rw [if_neg hallowed]
    have hshows := EventStore.outcomeShows_of_refused (Bool.eq_false_iff.mpr hallowed)
    refine ⟨hsplit, fun d' hd' ↦ ⟨(hbegun d' hd').1, fun hmem ↦
      (hbegun d' hd').2 (List.mem_cons_of_mem d hmem)⟩, fun d' hd' ↦ ?_, h.shows, hguard,
      fun f hf ↦ absurd hf (Option.not_mem_none f)⟩
    rcases hpassed d' hd' with hmem | hmem
    · rcases List.mem_cons.mp hmem with rfl | hmem
      · exact .inr (.inr hshows)
      · exact .inl hmem
    · exact .inr hmem

/-- **Start.** The side effect of the job has begun. -/
theorem kept_markStarted (hp : Polled scheduler s) (h : Kept sup.redactor store passed begun s)
    (hstage : s.stage = .intended f todo) :
    ∃ begun', Kept sup.redactor store passed begun' (sup.markStarted s x f todo) := by
  have hpending : s.pending = todo := by rw [pending, hstage]
  have hwaiting : s.waiting = f.due :: todo := by rw [waiting, hstage]
  obtain ⟨hpassed, -, hrow⟩ := h.row f (by rw [current, hstage]; rfl)
  have htodo : f.due ∉ todo := hpending ▸ not_mem_pending hp h hpassed
  unfold markStarted
  cases happ : append sup.redactor _ x.draw s.store with
  | mk answer store' =>
    cases answer with
    | error err =>
      refine ⟨begun, kept_of_same h rfl rfl hpending.symm hwaiting.symm fun f hf ↦ ?_⟩
      exact absurd hf (Option.not_mem_none f)
    | ok e =>
      have hmarks := EventStore.marks_started happ rfl
      have hshows : ∀ k, store'.OutcomeShows k ↔
          s.store.OutcomeShows k ∨ s.store.RowUnder f.sideEffectId k := fun k ↦
        hmarks.outcomeShows (by decide)
      refine ⟨begun ++ [f.due], ?_⟩
      refine ⟨h.split.trans (by rw [hpending]; rfl), fun d hd ↦ ?_, fun d hd ↦ ?_, fun k ↦ ?_,
        fun id instant hid hne ↦ ?_, fun f' hf' ↦ ?_⟩
      · rcases List.mem_append.mp hd with hd | hd
        · obtain ⟨hmem, hnot⟩ := h.mem_passed d hd
          rw [hwaiting, List.mem_cons, not_or] at hnot
          exact ⟨hmem, hnot.2⟩
        · rw [List.mem_singleton.mp hd]
          exact ⟨hpassed, htodo⟩
      · rcases h.mem_begun d hd with hmem | hmem | hmem
        · rw [hwaiting] at hmem
          rcases List.mem_cons.mp hmem with rfl | hmem
          · exact .inr (.inl (List.mem_append_right _ (List.mem_singleton_self _)))
          · exact .inl hmem
        · exact .inr (.inl (List.mem_append_left _ hmem))
        · exact .inr (.inr ((hshows _).mpr (.inl hmem)))
      · rw [hshows, h.shows, or_assoc]
        refine or_congr_right ?_
        constructor
        · rintro (⟨d, hd, hk⟩ | hk)
          · exact ⟨d, List.mem_append_left _ hd, hk⟩
          · exact ⟨f.due, List.mem_append_right _ (List.mem_singleton_self _), hrow.key_eq hk⟩
        · rintro ⟨d, hd, rfl⟩
          rcases List.mem_append.mp hd with hd | hd
          · exact .inl ⟨d, hd, rfl⟩
          · rw [List.mem_singleton.mp hd]
            exact .inr hrow
      · have hkey : fireKey f.due ≠ cronFireKey id instant := fun hkey ↦
          hne f.due hpassed (cronFireKey_inj hkey)
        exact (hmarks.allowed hrow (redact_ne_cronFireKey hid hkey)).trans
          (h.guard id instant hid hne)
      · rw [← Option.some.inj hf']
        exact ⟨hpassed, .inr (List.mem_append_right _ (List.mem_singleton_self _)),
          hmarks.rowUnder hrow⟩

/-- **Run.** The ledger stays. -/
theorem kept_runWorkload (h : Kept sup.redactor store passed begun s)
    (hstage : s.stage = .started f todo) :
    Kept sup.redactor store passed begun (sup.runWorkload s x f todo) := by
  have hpending : s.pending = todo := by rw [pending, hstage]
  have hwaiting : s.waiting = todo := by rw [waiting, hstage, hpending]
  have hcurrent : s.current = some f := by rw [current, hstage]
  unfold runWorkload
  dsimp only
  cases (sup.decodeWorkload f.due.job.workloadTag).command with
  | none =>
    exact kept_of_same h rfl rfl hpending.symm hwaiting.symm fun f' hf' ↦ hcurrent ▸ hf'
  | some command =>
    dsimp only
    cases sup.tools.runSandboxedShell x.callId x.clock _ s.world with
    | mk answer world =>
      cases answer with
      | ok result =>
        exact kept_of_same h rfl rfl hpending.symm hwaiting.symm fun f' hf' ↦ hcurrent ▸ hf'
      | error err =>
        exact kept_of_same h rfl rfl hpending.symm hwaiting.symm fun f' hf' ↦
          absurd hf' (Option.not_mem_none f')

/-- **Settle.** What is settled had begun, so nothing new shows. -/
theorem kept_settle (hp : Polled scheduler s) (h : Kept sup.redactor store passed begun s)
    {ok : Bool} {detail : Option String} (hstage : s.stage = .ran f ok detail todo) :
    Kept sup.redactor store passed begun (sup.settle s x f ok detail todo) := by
  have hpending : s.pending = todo := by rw [pending, hstage]
  have hwaiting : s.waiting = todo := by rw [waiting, hstage, hpending]
  obtain ⟨hpassed, hwhere, hrow⟩ := h.row f (by rw [current, hstage]; rfl)
  have hbegun : f.due ∈ begun := by
    refine hwhere.resolve_left fun hmem ↦ not_mem_pending hp h hpassed ?_
    rwa [hpending, ← hwaiting]
  unfold settle
  cases happ : append sup.redactor _ x.draw s.store with
  | mk answer store' =>
    cases answer with
    | error err =>
      exact kept_of_same h rfl rfl hpending.symm hwaiting.symm fun f hf ↦
        absurd hf (Option.not_mem_none f)
    | ok e =>
      have hmarks := EventStore.marks_settled happ rfl
      have hshows : ∀ k, store'.OutcomeShows k ↔ s.store.OutcomeShows k := by
        intro k
        rw [hmarks.outcomeShows (by cases ok <;> decide)]
        refine or_iff_left_of_imp fun hk ↦ (h.shows k).mpr (.inr ⟨f.due, hbegun, ?_⟩)
        exact hrow.key_eq hk
      refine ⟨h.split.trans (by rw [hpending]; rfl), ?_, fun d hd ↦ ?_,
        fun k ↦ (hshows k).trans (h.shows k), fun id instant hid hne ↦ ?_,
        fun f' hf' ↦ absurd hf' (Option.not_mem_none f')⟩
      · exact hwaiting ▸ h.mem_passed
      · exact (hwaiting ▸ h.mem_begun d hd).imp_right (Or.imp_right (hshows _).mpr)
      · have hkey : fireKey f.due ≠ cronFireKey id instant := fun hkey ↦
          hne f.due hpassed (cronFireKey_inj hkey)
        exact (hmarks.allowed hrow (redact_ne_cronFireKey hid hkey)).trans
          (h.guard id instant hid hne)

end Fire

/-! ## Runs -/

/-- **Step.** -/
theorem kept_step (hp : Polled scheduler s) (h : Kept sup.redactor store passed begun s) :
    Polled scheduler (sup.step s x) ∧
      ∃ passed' begun', Kept sup.redactor store passed' begun' (sup.step s x) := by
  unfold step
  cases hstage : s.stage with
  | polling next =>
    cases next with
    | nil =>
      have hpending : s.pending = s.due := by rw [pending, hstage]
      have hwaiting : s.waiting = s.due := by rw [waiting, hstage, hpending]
      have hunpolled : s.unpolled = [] := by rw [unpolled, hstage]
      have hfires : Fires s { s with stage := .firing s.due } := ⟨rfl, rfl, rfl, rfl⟩
      refine ⟨hfires.polled hp hunpolled, passed, begun, ?_⟩
      exact kept_of_same h rfl rfl hpending.symm hwaiting.symm fun f hf ↦
        absurd hf (Option.not_mem_none f)
    | cons job next =>
      exact ⟨sup.polled_look x hp hstage, passed, begun, sup.kept_look x h hstage⟩
  | firing todo =>
    have hunpolled : s.unpolled = [] := by rw [unpolled, hstage]
    cases todo with
    | nil => exact ⟨hp, passed, begun, h⟩
    | cons d todo =>
      exact ⟨(sup.fires_announce x).polled hp hunpolled, passed ++ [d], begun,
        sup.kept_announce x h hstage⟩
  | intended f todo =>
    have hunpolled : s.unpolled = [] := by rw [unpolled, hstage]
    exact ⟨(sup.fires_markStarted x).polled hp hunpolled, passed,
      sup.kept_markStarted x hp h hstage⟩
  | started f todo =>
    have hunpolled : s.unpolled = [] := by rw [unpolled, hstage]
    exact ⟨(sup.fires_runWorkload x).polled hp hunpolled, passed, begun,
      sup.kept_runWorkload x h hstage⟩
  | ran f ok detail todo =>
    have hunpolled : s.unpolled = [] := by rw [unpolled, hstage]
    exact ⟨(sup.fires_settle x).polled hp hunpolled, passed, begun,
      sup.kept_settle x hp h hstage⟩
  | refused d begun' todo => exact ⟨hp, passed, begun, h⟩
  | threw d todo => exact ⟨hp, passed, begun, h⟩

/-- Before the first step nothing has changed. -/
theorem kept_start (r : Redactor) (scheduler : JobMap) (store : EventStore) (world : σ) :
    Kept r store [] [] (start scheduler store world) where
  split := rfl
  mem_passed d hd := absurd hd List.not_mem_nil
  mem_begun d hd := absurd hd List.not_mem_nil
  shows k := by simp [start]
  guard _ _ _ _ := rfl
  row f hf := absurd hf (Option.not_mem_none f)

/-- **Run.** -/
theorem kept_run (hp : Polled scheduler s) (h : Kept sup.redactor store passed begun s)
    (xs : List Drawn) : Polled scheduler (sup.run s xs) ∧
      ∃ passed' begun', Kept sup.redactor store passed' begun' (sup.run s xs) := by
  induction xs generalizing s passed begun with
  | nil => exact ⟨hp, passed, begun, h⟩
  | cons x xs ih =>
    obtain ⟨hp', passed', begun', h'⟩ := sup.kept_step x hp h
    exact ih hp' h'

section Owed

variable {r : Redactor}

/-- A key of a job that is reported comes from the key of another only by being it. -/
theorem redact_fireKey_eq_iff (hp : Polled scheduler s) {d d' : DueResult} (hd : d ∈ s.due)
    (hd' : d' ∈ s.due) :
    r.redact (fireKey d') = fireKey d ↔ d' = d ∧ r.redact (fireKey d) = fireKey d := by
  constructor
  · intro h
    have hkey : fireKey d' = fireKey d := by
      by_contra hne
      exact redact_ne_cronFireKey (hp.clean hd) hne h
    have hsame : d' = d := hp.eq_of_id_eq hd' hd (cronFireKey_inj hkey)
    exact ⟨hsame, hsame ▸ h⟩
  · rintro ⟨rfl, h⟩
    exact h

/-- What a job shows at the end. -/
theorem outcomeShows_iff (hp : Polled scheduler s) (h : Kept r store passed begun s)
    {d : DueResult} (hd : d ∈ s.due) :
    s.store.OutcomeShows (fireKey d) ↔
      store.OutcomeShows (fireKey d) ∨ (d ∉ s.waiting ∧ r.redact (fireKey d) = fireKey d) := by
  have hmem : ∀ d' ∈ begun, d' ∈ s.due := fun d' hd' ↦
    h.split ▸ List.mem_append_left _ (h.mem_passed d' hd').1
  have hkept : s.store.OutcomeShows (fireKey d) ↔
      store.OutcomeShows (fireKey d) ∨ (d ∈ begun ∧ r.redact (fireKey d) = fireKey d) := by
    rw [h.shows]
    refine or_congr_right ⟨?_, fun hbegun ↦ ⟨d, hbegun⟩⟩
    rintro ⟨d', hd', hkey⟩
    obtain ⟨rfl, hkey⟩ := (redact_fireKey_eq_iff hp hd (hmem d' hd')).mp hkey
    exact ⟨hd', hkey⟩
  rw [hkept]
  constructor
  · exact Or.imp_right fun hbegun ↦ ⟨(h.mem_passed d hbegun.1).2, hbegun.2⟩
  · rintro (hshows | ⟨hwaiting, hkey⟩)
    · exact .inl hshows
    · -- A job that does not wait was passed. Either it was started, or the ledger refused it.
      have hpassed : d ∈ passed := by
        refine (List.mem_append.mp (h.split ▸ hd)).resolve_right fun hpending ↦ hwaiting ?_
        exact pending_subset_waiting s hpending
      rcases h.mem_begun d hpassed with hmem | hmem | hmem
      · exact absurd hmem hwaiting
      · exact .inr ⟨hmem, hkey⟩
      · exact hkept.mp hmem

end Owed

/-- **What a poll of the supervisor leaves.** For every scheduler, every ledger and every point a
poll stops at, it has done what it owes exactly if it came far enough: every durable job that was
reported was started, or showed an outcome before the poll, and no job that may still be fired was
left by a command that threw. -/
theorem accounted_iff (scheduler : JobMap) (store : EventStore) (world : σ) (xs : List Drawn) :
    (sup.run (start scheduler store world) xs).Accounted ↔
      (sup.run (start scheduler store world) xs).Covered sup.redactor store := by
  obtain ⟨hp, passed, begun, h⟩ :=
    sup.kept_run (polled_start scheduler store world) (kept_start _ scheduler store world) xs
  generalize sup.run (start scheduler store world) xs = s at hp h ⊢
  have hleft : ∀ d todo, s.stage = .threw d todo → ∀ d' ∈ todo,
      (s.store.mayExecute (fireKey d')).allowed = (store.mayExecute (fireKey d')).allowed := by
    intro d todo hstage d' hd'
    have hpending : s.pending = todo := by rw [pending, hstage]
    have hdue : d' ∈ s.due := h.split ▸ List.mem_append_right _ (hpending ▸ hd')
    refine h.guard _ _ (hp.clean hdue) fun d'' hd'' hid ↦ ?_
    have hsame := hp.eq_of_id_eq (h.split ▸ List.mem_append_left _ hd'') hdue hid
    exact not_mem_pending hp h hd'' (hpending ▸ hsame ▸ hd')
  constructor
  · refine fun ha ↦ ⟨fun d hd hdurable ↦ ?_, fun d todo hstage d' hd' ↦ ?_⟩
    · exact (outcomeShows_iff hp h hd).mp (ha.shows d hd ((hp.record_mem_log_iff hd).mpr hdurable))
    · rw [← hleft d todo hstage d' hd']
      exact ha.isolated d todo hstage d' hd'
  · refine fun hc ↦ ⟨fun d hd hrec ↦ ?_, fun d todo hstage d' hd' ↦ ?_⟩
    · exact (outcomeShows_iff hp h hd).mpr (hc.shows d hd ((hp.record_mem_log_iff hd).mp hrec))
    · rw [hleft d todo hstage d' hd']
      exact hc.isolated d todo hstage d' hd'

/-- The worker cannot be started. Every tag is read as the command `make clean`. -/
def brokenWorker : Supervision Unit Unit where
  redactor := .none
  tools :=
    { sys := Policy.examplePlatform
      processCwd := "/repo"
      homeDir := "/home/u"
      explain _ := "invalid arguments"
      run _ w := (.error (), w) }
  lastFire _ _ _ _ := some none
  marker record := record.id
  decodeWorkload _ := ⟨some "make", ["clean"]⟩
  permissionProfile := .ask
  turnId := "trn_000001"
  correlationId := "cor_000001"
  now := 1
  managed := Policy.noManagedRestrictions
  workspaceRoot := "/repo"

/-- A durable one-shot that is due at the start. -/
def dueJob (id : String) : JobState where
  job :=
    { id := id
      owner := "cli"
      threadId := "thr_000001"
      kind := .oneShot
      cronSource := none
      fireAt := some 0
      workloadTag := "clean"
      authorityCeiling :=
        { profile := .ask
          isolation := .disabled
          networkAllowed := true
          workspaceRoots := ["/repo"]
          rules := [Tools.preapprovalRule "make" ["clean"]]
          grants := []
          maxChildDepth := 1 }
      createdAt := 0
      expiresAt := none
      durable := true
      jitterMs := 0 }
  status := .active
  cursor := 0
  pendingCoalesced := none
  firedInstants := []
  missedInstants := []

def twoDueJobs : JobMap where
  jobs := ⟨[dueJob "job_000001", dueJob "job_000002"], by decide⟩
  named := by decide

/-- What a step draws, told apart by one text. -/
def drawnAs (n : String) : Drawn :=
  ⟨{ id := "evt_00000" ++ n, now := 1 }, "sfx_00000" ++ n, "sfx_10000" ++ n, "trn_00000" ++ n,
    "cor_00000" ++ n, 1, "bg_1"⟩

/-- Both jobs are recorded as fired, and the command of the first throws. -/
def firstThrows : Supervisor Unit :=
  brokenWorker.run (start twoDueJobs .empty ()) (["1", "2", "3", "4", "5", "6"].map drawnAs)

/-- The second job shows nothing, and will not be reported again. -/
theorem not_accounted_firstThrows : ¬ firstThrows.Accounted := by
  intro h
  have hrows : ∀ d ∈ firstThrows.due, firstThrows.log.contains d.record = false ∨
      (firstThrows.store.projection.sideEffects.rows.any fun row ↦
        decide (row.idempotencyKey = fireKey d ∧ row.state ≠ .notStarted)) = true := by
    intro d hd
    rw [← Bool.not_eq_true, List.contains_iff_mem, ← imp_iff_not_or]
    intro hrec
    obtain ⟨row, hrow, hshows⟩ := h.shows d hd hrec
    exact List.any_eq_true.mpr ⟨row, hrow, decide_eq_true hshows⟩
  exact absurd hrows (by decide +kernel)

end Supervision

end QwenHarness.Cli
