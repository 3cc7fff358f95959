import QwenHarness.Policy.Authority
import QwenHarness.Table.Keyed

/-!
# What is due

The scheduler runs nothing. It looks at every job in turn, marks the instant of one that is due as
fired and reports it. What it marks goes to a log as well if the job is durable, before the report
is made.

The search for the latest instant of a cron expression reads the local time of the host. What it
comes to is a parameter here.
-/

/-!
## Scheduled jobs

A job is recurring or a one-shot. It captures its authority when it is made. The scheduler keeps a
state for each job, and the durable jobs have a log besides. A job that is made is put among the
others before it is written to that log.
-/

namespace QwenHarness.Scheduler

open Policy

inductive JobKind where
  | recurring
  | oneShot
deriving DecidableEq, Repr

inductive JobStatus where
  /-- It may fire. -/
  | active
  /-- A one-shot that has fired. -/
  | fired
  | missed
  | dropped
  | expired
  | deleted
deriving DecidableEq, Repr

structure CronJob where
  id : String
  owner : String
  threadId : String
  kind : JobKind
  /-- Of a recurring job, the cron expression. -/
  cronSource : Option String
  /-- Of a one-shot, the instant it fires at. -/
  fireAt : Option ℤ
  workloadTag : String
  /-- What the job was given when it was made. -/
  authorityCeiling : Authority
  createdAt : ℤ
  expiresAt : Option ℤ
  durable : Bool
  jitterMs : ℤ
deriving DecidableEq, Repr

structure JobState where
  job : CronJob
  status : JobStatus
  /-- The latest instant accounted for. -/
  cursor : ℤ
  /-- An instant that came while the runtime was busy. -/
  pendingCoalesced : Option ℤ
  firedInstants : List ℤ
  missedInstants : List ℤ
deriving DecidableEq, Repr

def JobState.id (state : JobState) : String := state.job.id

/-- An entry of the durable log. -/
inductive SchedulerRecord where
  | jobCreated (job : CronJob)
  | jobDeleted (id : String)
  | jobStatus (id : String) (status : JobStatus)
  | jobFired (id : String) (instant : ℤ)
  | jobMissedInstant (id : String) (instant : ℤ)
deriving DecidableEq, Repr

/-- The job an entry is about. -/
def SchedulerRecord.id : SchedulerRecord → String
  | .jobCreated job => job.id
  | .jobDeleted id => id
  | .jobStatus id _ => id
  | .jobFired id _ => id
  | .jobMissedInstant id _ => id

/-- The jobs, in the order they were made. Their ids were drawn under the prefix of jobs. -/
structure JobMap where
  jobs : Keyed JobState.id
  named : ∀ state ∈ jobs.rows, isId "job" state.id = true

/-- A record is written only for a durable job. -/
def CronJob.persist (job : CronJob) (record : SchedulerRecord) : Option SchedulerRecord :=
  if job.durable then some record else none

theorem persist_eq_some_iff {job : CronJob} {record record' : SchedulerRecord} :
    job.persist record = some record' ↔ job.durable = true ∧ record = record' := by
  rw [CronJob.persist, Option.ite_none_right_eq_some, Option.some_inj]

/-! ## Making a job -/

/-- When a job is to fire. An instant that is not finite is none. -/
inductive Schedule where
  | recurring (cronExpr : String)
  | oneShot (fireAt : Option ℤ)
deriving DecidableEq, Repr

structure CreateJobInput where
  owner : String
  threadId : String
  schedule : Schedule
  workloadTag : String
  authorityCeiling : Authority
  durable : Bool
deriving DecidableEq, Repr

inductive CreateError where
  | limitExceeded
  | invalidCron
  | invalidFireTime
  /-- The durable log does not take the record. -/
  | store
deriving DecidableEq, Repr

def maxJobsPerOwner : ℕ := 50

/-- Seven days. -/
def recurringExpiryMs : ℤ := 7 * 24 * 60 * 60 * 1000

section Create

variable (parses : String → Bool) (jitter : String → String → ℤ → ℤ) (createdAt : ℤ) (id : String)
  (input : CreateJobInput)

/-- The job that an input describes. `parses` says which expressions are accepted, `jitter` is what
is computed from the id, the expression and the time. -/
def newJob : Except CreateError CronJob :=
  let job (kind : JobKind) (cronSource : Option String) (fireAt expiresAt : Option ℤ)
      (jitterMs : ℤ) : CronJob :=
    ⟨id, input.owner, input.threadId, kind, cronSource, fireAt, input.workloadTag,
      input.authorityCeiling, createdAt, expiresAt, input.durable, jitterMs⟩
  match input.schedule with
  | .recurring cronExpr =>
    if parses cronExpr then
      .ok (job .recurring (some cronExpr) none (some (createdAt + recurringExpiryMs))
        (jitter id cronExpr createdAt))
    else .error .invalidCron
  | .oneShot none => .error .invalidFireTime
  | .oneShot (some fireAt) => .ok (job .oneShot none (some fireAt) none 0)

def JobState.new (job : CronJob) : JobState :=
  ⟨job, .active, job.createdAt, none, [], []⟩

/-- `#jobs.set`: in the place of the job with this id, or at the end. -/
def setJob (state : JobState) (jobs : List JobState) : List JobState :=
  if jobs.any fun other ↦ other.id = state.id then
    jobs.map fun other ↦ if other.id = state.id then state else other
  else jobs ++ [state]

/-- The live jobs of an owner. -/
def liveCount (owner : String) (jobs : List JobState) : ℕ :=
  jobs.countP fun state ↦ decide (state.job.owner = owner ∧ state.status = .active)

/-- Make a job. `written` says which records the durable log takes. -/
def create (written : SchedulerRecord → Bool) (jobs : List JobState) :
    Except CreateError CronJob × List JobState :=
  if maxJobsPerOwner ≤ liveCount input.owner jobs then (.error .limitExceeded, jobs)
  else
    match newJob parses jitter createdAt id input with
    | .error e => (.error e, jobs)
    | .ok job =>
      match job.persist (.jobCreated job) with
      | none => (.ok job, setJob (.new job) jobs)
      | some record =>
        (if written record then .ok job else .error .store, setJob (.new job) jobs)

end Create

section NewJob

variable {parses : String → Bool} {jitter : String → String → ℤ → ℤ} {createdAt : ℤ} {id : String}
  {input : CreateJobInput} {job : CronJob}

theorem newJob_spec (h : newJob parses jitter createdAt id input = .ok job) :
    job.id = id ∧ job.durable = input.durable ∧ job.createdAt = createdAt := by
  unfold newJob at h
  cases hs : input.schedule with
  | recurring cronExpr =>
    rw [hs] at h
    by_cases hp : parses cronExpr = true
    · rw [← Except.ok.inj ((if_pos hp).symm.trans h)]
      exact ⟨rfl, rfl, rfl⟩
    · cases (if_neg hp).symm.trans h
  | oneShot fireAt =>
    rw [hs] at h
    cases fireAt with
    | none => cases h
    | some fireAt =>
      rw [← Except.ok.inj h]
      exact ⟨rfl, rfl, rfl⟩

/-- A job under a new id is put at the end. -/
theorem setJob_of_fresh {state : JobState} {jobs : List JobState}
    (h : ∀ other ∈ jobs, other.id ≠ state.id) : setJob state jobs = jobs ++ [state] := by
  rw [setJob, if_neg]
  rw [List.any_eq_true]
  rintro ⟨other, hother, hid⟩
  exact h other hother (of_decide_eq_true hid)

end NewJob

end QwenHarness.Scheduler

namespace QwenHarness.Scheduler

open Policy

/-- A job that is due. -/
structure DueResult where
  job : CronJob
  scheduledInstant : ℤ
  /-- The instant and the jitter of the job. -/
  firedAt : ℤ
  /-- What the job was given, narrowed by the ceiling of the time. -/
  authority : Authority
deriving DecidableEq, Repr

/-- The record that says that a job fired. -/
def firedRecord (job : CronJob) (instant : ℤ) : SchedulerRecord :=
  match job.kind with
  | .oneShot => .jobStatus job.id .fired
  | .recurring => .jobFired job.id instant

def DueResult.record (d : DueResult) : SchedulerRecord := firedRecord d.job d.scheduledInstant

/-! ## One job -/

/-- What a look at a job comes to. If the record is not written, the report is not made, but the
state stays. -/
structure Evaluation where
  state : JobState
  record : Option SchedulerRecord
  due : Option DueResult
deriving DecidableEq, Repr

section Evaluate

variable (lastFire : String → ℤ → ℤ → ℤ → Option (Option ℤ)) (now : ℤ) (busy : Bool)
  (managed : ManagedPolicy) (state : JobState)

/-- Nothing happens to the job. -/
def Evaluation.idle : Evaluation := ⟨state, none, none⟩

/-- A recurring job that is past its end. -/
def expires : Bool :=
  match state.job.kind, state.job.expiresAt with
  | .recurring, some expiresAt => decide (expiresAt ≤ now)
  | _, _ => false

/-- The latest instant of a recurring job to fire now. `lastFire` is given the expression, the
cursor, the jitter and the time; `none` is a search that throws. -/
def recurringTarget : Option (Option ℤ) :=
  match state.job.cronSource with
  | none => some none
  | some expr =>
    (lastFire expr state.cursor state.job.jitterMs now).map fun candidate ↦
      match state.pendingCoalesced, candidate with
      | none, candidate => candidate
      | some pending, none => some pending
      | some pending, some candidate => some (max candidate pending)

def oneShotTarget : Option ℤ :=
  match state.job.fireAt with
  | none => none
  | some fireAt =>
    match state.pendingCoalesced with
    | some pending => some pending
    | none =>
      if fireAt + state.job.jitterMs ≤ now ∧ state.firedInstants.contains fireAt = false then
        some fireAt
      else none

def target : Option (Option ℤ) :=
  match state.job.kind with
  | .recurring => recurringTarget lastFire now state
  | .oneShot => some (oneShotTarget now state)

/-- `#fire`: the instant is marked, then recorded, then reported. -/
def fire (scheduledInstant : ℤ) : Evaluation where
  state :=
    { state with
      cursor := max state.cursor scheduledInstant
      pendingCoalesced := none
      firedInstants := state.firedInstants ++ [scheduledInstant]
      status := match state.job.kind with
        | .oneShot => .fired
        | .recurring => state.status }
  record := state.job.persist (firedRecord state.job scheduledInstant)
  due := some
    { job := state.job
      scheduledInstant := scheduledInstant
      firedAt := scheduledInstant + state.job.jitterMs
      authority := intersect state.job.authorityCeiling state.job.authorityCeiling managed }

/-- `#evaluate`. A job whose search throws is skipped. -/
def evaluate : Evaluation :=
  if state.status ≠ .active then .idle state
  else if expires now state then
    { state := { state with status := .expired }
      record := state.job.persist (.jobStatus state.job.id .expired)
      due := none }
  else
    match target lastFire now state with
    | none => .idle state
    | some none => .idle state
    | some (some instant) =>
      if busy then
        { Evaluation.idle state with
          state :=
            { state with
              pendingCoalesced := some instant
              cursor := max state.cursor instant } }
      else fire managed state instant

/-- The instant a job fires at in a poll, if it does. -/
def firesAt : Option ℤ :=
  if state.status = .active ∧ expires now state = false ∧ busy = false then
    (target lastFire now state).join
  else none

/-- What is reported. `written` says which records the durable log takes. -/
def Evaluation.report (written : SchedulerRecord → Bool) (looked : Evaluation) :
    Option DueResult :=
  match looked.record with
  | none => looked.due
  | some record => if written record then looked.due else none

/-- The poll: what is reported of the jobs, and what becomes of them. -/
def due (written : SchedulerRecord → Bool) (jobs : List JobState) :
    List DueResult × List JobState :=
  (jobs.filterMap fun state ↦ (evaluate lastFire now busy managed state).report written,
    jobs.map fun state ↦ (evaluate lastFire now busy managed state).state)

end Evaluate

/-! ## What a look can come to -/

section Cases

variable {lastFire : String → ℤ → ℤ → ℤ → Option (Option ℤ)} {now : ℤ} {busy : Bool}
  {managed : ManagedPolicy} {state : JobState}

/-- Either the job is reported, through `fire`, or it is not. -/
theorem evaluate_cases :
    (∃ instant, evaluate lastFire now busy managed state = fire managed state instant) ∨
      ((evaluate lastFire now busy managed state).due = none ∧
        (evaluate lastFire now busy managed state).state.job = state.job ∧
        ∀ record ∈ (evaluate lastFire now busy managed state).record,
          state.job.persist (.jobStatus state.job.id .expired) = some record) := by
  unfold evaluate
  split
  · exact .inr ⟨rfl, rfl, fun record h ↦ absurd h (Option.not_mem_none record)⟩
  split
  · exact .inr ⟨rfl, rfl, fun record h ↦ h⟩
  split
  · exact .inr ⟨rfl, rfl, fun record h ↦ absurd h (Option.not_mem_none record)⟩
  · exact .inr ⟨rfl, rfl, fun record h ↦ absurd h (Option.not_mem_none record)⟩
  · rename_i instant _
    split
    · exact .inr ⟨rfl, rfl, fun record h ↦ absurd h (Option.not_mem_none record)⟩
    · exact .inl ⟨instant, rfl⟩

theorem id_firedRecord (job : CronJob) (instant : ℤ) : (firedRecord job instant).id = job.id := by
  rw [firedRecord]
  split <;> rfl

/-- A look at a job leaves the job itself alone. -/
theorem job_evaluate : (evaluate lastFire now busy managed state).state.job = state.job := by
  rcases @evaluate_cases lastFire now busy managed state with ⟨instant, h⟩ | ⟨-, h, -⟩
  · rw [h]
    rfl
  · exact h

/-- What is reported is the job that was looked at. -/
theorem job_of_due {d : DueResult} (h : (evaluate lastFire now busy managed state).due = some d) :
    d.job = state.job := by
  rcases @evaluate_cases lastFire now busy managed state with ⟨instant, he⟩ | ⟨hn, -, -⟩
  · rw [he] at h
    rw [← Option.some.inj h]
  · rw [hn] at h
    cases h

/-- What is reported of a durable job is recorded. -/
theorem record_of_due {d : DueResult}
    (h : (evaluate lastFire now busy managed state).due = some d) :
    (evaluate lastFire now busy managed state).record = d.job.persist d.record := by
  rcases @evaluate_cases lastFire now busy managed state with ⟨instant, he⟩ | ⟨hn, -, -⟩
  · rw [he] at h ⊢
    rw [← Option.some.inj h]
    rfl
  · rw [hn] at h
    cases h

/-- What is recorded is about the job, and only if it is durable. -/
theorem id_of_record {record : SchedulerRecord}
    (h : (evaluate lastFire now busy managed state).record = some record) :
    record.id = state.job.id ∧ state.job.durable = true := by
  rcases @evaluate_cases lastFire now busy managed state with ⟨instant, he⟩ | ⟨-, -, hrec⟩
  · rw [he] at h
    obtain ⟨hdurable, rfl⟩ := persist_eq_some_iff.mp h
    exact ⟨id_firedRecord _ _, hdurable⟩
  · obtain ⟨hdurable, rfl⟩ := persist_eq_some_iff.mp (hrec record h)
    exact ⟨rfl, hdurable⟩

end Cases

end QwenHarness.Scheduler
