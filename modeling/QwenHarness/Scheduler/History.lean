import Mathlib.Order.Bounds.Basic
import QwenHarness.Scheduler.Poll

/-!
# What is told of a job

A job is told of in two places: what the polls report, and what the log records. An instant comes
next if it is later than all that were reported, is not recorded as missed and is one of the
instants of the expression. Whatever a step does to a job, only an instant that comes next is
reported.
-/

/-!
## Downtime and restart

A scheduler that comes up looks at what it slept through. A durable recurring job has every instant
it missed recorded, a one-shot that lapsed is missed, and all of them go on after the present. The
jobs themselves come from the durable log: what was created and not deleted, each with what was
recorded of it.
-/

namespace QwenHarness.Scheduler

open Policy

/-! ## The search for an instant -/

/-- A function that goes forward. -/
structure Forward where
  next : ℤ → ℤ
  lt_next : ∀ t, t < next t

def minuteMs : ℤ := 60000

/-- The search for the instants of cron expressions: from each time on, the least minute that
matches. An expression without a search throws. -/
structure CronSearch where
  «matches» : String → ℤ → Bool
  search : String → Option Forward
  isLeast : ∀ {expr f}, search expr = some f → ∀ t,
    IsLeast {x | t < x ∧ minuteMs ∣ x ∧ «matches» expr x = true} (f.next t)

def floorMinute (ms : ℤ) : ℤ := ms / minuteMs * minuteMs

/-- The instants a loop goes through, from one probe on up to a limit. -/
def probes (f : Forward) (limit probe : ℤ) : List ℤ :=
  if probe ≤ limit then probe :: probes f limit (f.next probe) else []
termination_by (limit + 1 - probe).toNat
decreasing_by
  have hlt := f.lt_next probe
  omega

/-- What the loop of a poll ends with: the last instant that is due with its jitter. -/
def CronSearch.lastFire (cron : CronSearch) (expr : String) (cursor jitterMs now : ℤ) :
    Option (Option ℤ) :=
  (cron.search expr).map fun f ↦ (probes f (now - jitterMs) (f.next cursor)).getLast?

section Probes

variable {f : Forward} {limit probe : ℤ}

/-- What holds of the probe and of all that is searched holds along the loop. -/
theorem forall_mem_probes {P : ℤ → Prop} (hnext : ∀ t, P (f.next t)) (hprobe : P probe) :
    ∀ x ∈ probes f limit probe, P x ∧ probe ≤ x ∧ x ≤ limit := by
  induction probe using probes.induct f limit with
  | case1 probe hle ih =>
    intro x hx
    rw [probes, if_pos hle] at hx
    rcases List.mem_cons.mp hx with rfl | hx
    · exact ⟨hprobe, le_rfl, hle⟩
    · obtain ⟨hP, hge, hlimit⟩ := ih (hnext probe) x hx
      exact ⟨hP, (f.lt_next probe).le.trans hge, hlimit⟩
  | case2 probe hgt =>
    intro x hx
    rw [probes, if_neg hgt] at hx
    cases hx

variable {cron : CronSearch} {expr : String} {cursor x : ℤ}

/-- **The instants of a loop** come after the cursor, are whole minutes and match. -/
theorem mem_probes (hf : cron.search expr = some f)
    (hx : x ∈ probes f limit (f.next cursor)) :
    cursor < x ∧ minuteMs ∣ x ∧ cron.matches expr x = true ∧ x ≤ limit := by
  have hnext : ∀ t, minuteMs ∣ f.next t ∧ cron.matches expr (f.next t) = true := fun t ↦
    (cron.isLeast hf t).1.2
  obtain ⟨⟨hdvd, hmatches⟩, hge, hlimit⟩ :=
    forall_mem_probes (P := fun x ↦ minuteMs ∣ x ∧ cron.matches expr x = true) hnext
      (hnext cursor) x hx
  exact ⟨(f.lt_next cursor).trans_le hge, hdvd, hmatches, hlimit⟩

theorem lastFire_spec {jitterMs now : ℤ}
    (h : cron.lastFire expr cursor jitterMs now = some (some x)) :
    cursor < x ∧ cron.matches expr x = true := by
  obtain ⟨f, hf, hlast⟩ := Option.map_eq_some_iff.mp h
  obtain ⟨hlt, -, hmatches, -⟩ := mem_probes hf (List.mem_of_getLast? hlast)
  exact ⟨hlt, hmatches⟩

end Probes

/-! ## Coming up -/

/-- What a step does to one job: the state it leaves, and what it records and reports. -/
structure Effect where
  state : JobState
  records : List SchedulerRecord
  reports : List DueResult
deriving DecidableEq, Repr

/-- A poll, with a log that takes every record. -/
def Evaluation.effect (looked : Evaluation) : Effect :=
  ⟨looked.state, looked.record.toList, looked.due.toList⟩

section Resume

variable (cron : CronSearch) (now : ℤ) (state : JobState)

/-- `#resumeRecurring`. The instants that were missed are those the loop goes through and that are
not among the missed ones yet. -/
def resumeRecurring : Effect :=
  match state.job.cronSource with
  | none => ⟨state, [], []⟩
  | some expr =>
    let resumed (missed : List ℤ) : Effect :=
      { state :=
          { state with
            missedInstants := state.missedInstants ++ missed
            cursor := max state.cursor (floorMinute now) }
        records := missed.map fun instant ↦ .jobMissedInstant state.job.id instant
        reports := [] }
    if state.job.durable then
      match cron.search expr with
      | none => ⟨state, [], []⟩
      | some f =>
        resumed ((probes f now (f.next state.cursor)).filter fun instant ↦
          !state.missedInstants.contains instant)
    else resumed []

def resumeOneShot : Effect :=
  match state.job.fireAt with
  | none => ⟨state, [], []⟩
  | some fireAt =>
    if now < fireAt ∨ state.firedInstants.contains fireAt = true then ⟨state, [], []⟩
    else if state.job.durable then
      ⟨{ state with status := .missed }, [.jobStatus state.job.id .missed], []⟩
    else ⟨{ state with status := .dropped }, [], []⟩

/-- `resumeAfterDowntime`, for one job. -/
def resume : Effect :=
  if state.status ≠ .active then ⟨state, [], []⟩
  else if expires now state then
    ⟨{ state with status := .expired },
      (state.job.persist (.jobStatus state.job.id .expired)).toList, []⟩
  else
    match state.job.kind with
    | .recurring => resumeRecurring cron now state
    | .oneShot => resumeOneShot now state

end Resume

/-! ## The log -/

/-- A durable job as the log has it. -/
structure FoldedJob where
  job : CronJob
  status : JobStatus
  firedInstants : List ℤ
  missedInstants : List ℤ
deriving DecidableEq, Repr

/-- An instant that is not there yet. -/
def addInstant (instant : ℤ) (instants : List ℤ) : List ℤ :=
  if instants.contains instant then instants else instants ++ [instant]

/-- What a record says of a job that it is about. -/
def FoldedJob.note (entry : FoldedJob) (record : SchedulerRecord) : FoldedJob :=
  if record.id = entry.job.id then
    match record with
    | .jobStatus _ status => { entry with status }
    | .jobFired _ instant =>
      { entry with firedInstants := addInstant instant entry.firedInstants }
    | .jobMissedInstant _ instant =>
      { entry with missedInstants := addInstant instant entry.missedInstants }
    | .jobCreated _ => entry
    | .jobDeleted _ => entry
  else entry

def foldRecord (entries : List FoldedJob) (record : SchedulerRecord) : List FoldedJob :=
  match record with
  | .jobCreated job =>
    if entries.any fun entry ↦ entry.job.id = job.id then
      entries.map fun entry ↦ if entry.job.id = job.id then ⟨job, .active, [], []⟩ else entry
    else entries ++ [⟨job, .active, [], []⟩]
  | .jobDeleted id => entries.filter fun entry ↦ entry.job.id ≠ id
  | _ => entries.map fun entry ↦ entry.note record

/-- The durable jobs of a log. -/
def foldRecords (records : List SchedulerRecord) : List FoldedJob := records.foldl foldRecord []

/-- `#restore`, for one job. The cursor is the latest instant that is recorded of it. -/
def FoldedJob.restore (entry : FoldedJob) : JobState where
  job := { entry.job with durable := true }
  status := entry.status
  cursor := (entry.firedInstants ++ entry.missedInstants).foldl max entry.job.createdAt
  pendingCoalesced := none
  firedInstants := entry.firedInstants
  missedInstants := entry.missedInstants

end QwenHarness.Scheduler

namespace QwenHarness.Scheduler

open Policy

/-- What was told of one job so far, each in its order. -/
structure History where
  reported : List ℤ
  records : List SchedulerRecord

/-- What a step adds. -/
def History.add (h : History) (e : Effect) : History where
  reported := h.reported ++ e.reports.map DueResult.scheduledInstant
  records := h.records ++ e.records

/-- An instant of the expression of a job. -/
def OnTime (cron : CronSearch) (job : CronJob) (instant : ℤ) : Prop :=
  ∃ expr, job.cronSource = some expr ∧ cron.matches expr instant = true

section Told

variable (cron : CronSearch) (job : CronJob) (h : History)

structure Next (instant : ℤ) : Prop where
  later : ∀ x ∈ h.reported, x < instant
  notMissed : .jobMissedInstant job.id instant ∉ h.records
  onTime : job.kind = .recurring → OnTime cron job instant

/-- What holds of a job whatever its state. -/
structure Told : Prop where
  increasing : h.reported.Pairwise (· < ·)
  onTime : job.kind = .recurring → ∀ x ∈ h.reported, OnTime cron job x
  once : job.kind = .oneShot → h.reported.length ≤ 1
  apart : ∀ x ∈ h.reported, .jobMissedInstant job.id x ∉ h.records
  lapsed : job.kind = .oneShot → .jobStatus job.id .missed ∈ h.records → h.reported = []
  /-- A one-shot has no missed instants, only a status. -/
  noInstants : job.kind = .oneShot → ∀ x, .jobMissedInstant job.id x ∉ h.records
  /-- What is reported of a durable job is in the log. -/
  fired : job.durable = true → job.kind = .recurring → ∀ x ∈ h.reported,
    .jobFired job.id x ∈ h.records
  settled : job.durable = true → job.kind = .oneShot → h.reported ≠ [] →
    ∃ status, .jobStatus job.id status ∈ h.records
  inactive : ∀ status, .jobStatus job.id status ∈ h.records → status ≠ .active

end Told

/-- What holds of the state of an active job. -/
structure Live (cron : CronSearch) (state : JobState) (h : History) : Prop where
  reported_le : state.job.kind = .recurring → ∀ x ∈ h.reported, x ≤ state.cursor
  missed_le : ∀ x, .jobMissedInstant state.job.id x ∈ h.records → x ≤ state.cursor
  pending : state.job.kind = .recurring → ∀ x ∈ state.pendingCoalesced,
    x ≤ state.cursor ∧ Next cron state.job h x
  fresh : state.job.kind = .oneShot →
    h.reported = [] ∧ .jobStatus state.job.id .missed ∉ h.records

/-- A job is as it was told of. -/
structure Tracked (cron : CronSearch) (state : JobState) (h : History) : Prop where
  told : Told cron state.job h
  live : state.status = .active → Live cron state h

section Records

variable {cron : CronSearch} {job : CronJob} {h : History} {records : List SchedulerRecord}

/-- Records that are neither of an active status nor of an instant that was reported. -/
theorem Told.addRecords (ht : Told cron job h)
    (hstatus : ∀ status, .jobStatus job.id status ∈ records →
      status ≠ .active ∧ (status = .missed → h.reported = []))
    (hmissed : ∀ x, .jobMissedInstant job.id x ∈ records →
      job.kind = .recurring ∧ x ∉ h.reported) :
    Told cron job ⟨h.reported, h.records ++ records⟩ where
  increasing := ht.increasing
  onTime := ht.onTime
  once := ht.once
  apart x hx hrec := by
    rcases List.mem_append.mp hrec with hrec | hrec
    · exact ht.apart x hx hrec
    · exact (hmissed x hrec).2 hx
  lapsed hkind hrec := by
    rcases List.mem_append.mp hrec with hrec | hrec
    · exact ht.lapsed hkind hrec
    · exact (hstatus _ hrec).2 rfl
  noInstants hkind x hrec := by
    rcases List.mem_append.mp hrec with hrec | hrec
    · exact ht.noInstants hkind x hrec
    · have hrecurring := (hmissed x hrec).1
      rw [hkind] at hrecurring
      cases hrecurring
  fired hdurable hkind x hx := List.mem_append_left _ (ht.fired hdurable hkind x hx)
  settled hdurable hkind hne := by
    obtain ⟨status, hrec⟩ := ht.settled hdurable hkind hne
    exact ⟨status, List.mem_append_left _ hrec⟩
  inactive status hrec := by
    rcases List.mem_append.mp hrec with hrec | hrec
    · exact ht.inactive status hrec
    · exact (hstatus status hrec).1

end Records

/-! ## What comes next -/

section Target

variable {cron : CronSearch} {now instant : ℤ} {state : JobState} {h : History}

/-- What comes after the cursor comes next. -/
theorem Live.next_of_lt (hl : Live cron state h) (hkind : state.job.kind = .recurring)
    (hlt : state.cursor < instant) (hon : OnTime cron state.job instant) :
    Next cron state.job h instant where
  later x hx := (hl.reported_le hkind x hx).trans_lt hlt
  notMissed hrec := (hl.missed_le instant hrec).not_gt hlt
  onTime _ := hon

theorem Live.next_of_recurring (hl : Live cron state h) (hkind : state.job.kind = .recurring)
    (hx : recurringTarget cron.lastFire now state = some (some instant)) :
    Next cron state.job h instant := by
  unfold recurringTarget at hx
  cases hs : state.job.cronSource with
  | none =>
    rw [hs] at hx
    cases hx
  | some expr =>
    rw [hs] at hx
    obtain ⟨candidate, hlast, hx⟩ := Option.map_eq_some_iff.mp hx
    have hafter : ∀ x, candidate = some x →
        state.cursor < x ∧ Next cron state.job h x := by
      rintro x rfl
      obtain ⟨hlt, hon⟩ := lastFire_spec hlast
      exact ⟨hlt, hl.next_of_lt hkind hlt ⟨expr, hs, hon⟩⟩
    cases hp : state.pendingCoalesced with
    | none =>
      rw [hp] at hx
      exact (hafter instant hx).2
    | some pending =>
      rw [hp] at hx
      obtain ⟨hle, hnext⟩ := hl.pending hkind pending hp
      cases candidate with
      | none => rwa [← Option.some.inj hx]
      | some x =>
        obtain ⟨hlt, hnextx⟩ := hafter x rfl
        rwa [← Option.some.inj hx, max_eq_left (hle.trans hlt.le)]

/-- **What is due comes next.** -/
theorem Tracked.next_of_target (ht : Tracked cron state h) (ha : state.status = .active)
    (hx : target cron.lastFire now state = some (some instant)) :
    Next cron state.job h instant := by
  unfold target at hx
  cases hkind : state.job.kind with
  | recurring =>
    rw [hkind] at hx
    exact (ht.live ha).next_of_recurring hkind hx
  | oneShot =>
    refine ⟨fun x hmem ↦ ?_, ht.told.noInstants hkind instant, fun hrec ↦ ?_⟩
    · rw [((ht.live ha).fresh hkind).1] at hmem
      cases hmem
    · rw [hkind] at hrec
      cases hrec

end Target

/-! ## What a step does -/

/-- What a step may do to a job. -/
structure Sound (cron : CronSearch) (state : JobState) (e : Effect) : Prop where
  job : e.state.job = state.job
  recordId : ∀ record ∈ e.records, record.id = state.id
  notCreated : ∀ job, .jobCreated job ∉ e.records
  reportJob : ∀ d ∈ e.reports, d.job = state.job
  tracked : ∀ h, Tracked cron state h → Tracked cron e.state (h.add e)

section Sound

variable {cron : CronSearch} {state : JobState} {h : History} {status : JobStatus}

/-- Nothing happens to the job. -/
theorem sound_idle : Sound cron state ⟨state, [], []⟩ where
  job := rfl
  recordId record hrec := by cases hrec
  notCreated job hrec := by cases hrec
  reportJob d hd := by cases hd
  tracked h ht := by
    rw [History.add, List.map_nil, List.append_nil, List.append_nil]
    exact ht

theorem mem_persist {job : CronJob} {record record' : SchedulerRecord} :
    record' ∈ (job.persist record).toList ↔ job.durable = true ∧ record = record' := by
  rw [Option.mem_toList, persist_eq_some_iff]

/-- Nothing is reported, and the job is not active any more. -/
theorem sound_stop {state' : JobState} {record : SchedulerRecord} (hjob : state'.job = state.job)
    (hstop : state'.status ≠ .active) (hid : record.id = state.id)
    (hcreated : ∀ job, record ≠ .jobCreated job)
    (hmissed : ∀ x, record ≠ .jobMissedInstant state.job.id x)
    (hstatus : ∀ status, record = .jobStatus state.job.id status → status ≠ .active ∧
      (status = .missed → ∀ h, Tracked cron state h → h.reported = [])) :
    Sound cron state ⟨state', (state.job.persist record).toList, []⟩ where
  job := hjob
  recordId record' hrec := by
    obtain ⟨-, rfl⟩ := mem_persist.mp hrec
    exact hid
  notCreated job hrec := hcreated job (mem_persist.mp hrec).2
  reportJob d hd := by cases hd
  tracked h ht := by
    refine ⟨?_, fun ha ↦ absurd ha hstop⟩
    rw [History.add, List.map_nil, List.append_nil, hjob]
    refine ht.told.addRecords (fun status hrec ↦ ?_) fun x hrec ↦ ?_
    · obtain ⟨hne, hnone⟩ := hstatus status (mem_persist.mp hrec).2
      exact ⟨hne, fun hm ↦ hnone hm h ht⟩
    · exact absurd (mem_persist.mp hrec).2 (hmissed x)

/-- The status of a job is set, to one that is not active. -/
theorem sound_status (hne : status ≠ .active)
    (hmissed : status = .missed → ∀ h, Tracked cron state h → h.reported = []) :
    Sound cron state ⟨{ state with status := status },
      (state.job.persist (.jobStatus state.job.id status)).toList, []⟩ := by
  refine sound_stop rfl hne rfl (fun job h ↦ ?_) (fun x h ↦ ?_) fun status' h ↦ ?_
  · cases h
  · cases h
  · cases h
    exact ⟨hne, hmissed⟩

variable {managed : ManagedPolicy} {instant : ℤ}

/-- What is fired has been told of in a report and, if the job is durable, in a record. -/
theorem Told.add_fired {job : CronJob} (ht : Told cron job h) (hnext : Next cron job h instant)
    (hfresh : job.kind = .oneShot →
      h.reported = [] ∧ .jobStatus job.id .missed ∉ h.records) :
    Told cron job ⟨h.reported ++ [instant],
      h.records ++ (job.persist (firedRecord job instant)).toList⟩ := by
  have hinstant : ∀ x, .jobMissedInstant job.id x ∈
      h.records ++ (job.persist (firedRecord job instant)).toList →
      .jobMissedInstant job.id x ∈ h.records := by
    intro x hrec
    rcases List.mem_append.mp hrec with hrec | hrec
    · exact hrec
    · have heq := (mem_persist.mp hrec).2
      rw [firedRecord] at heq
      cases hkind : job.kind <;> rw [hkind] at heq <;> cases heq
  have hstatus : ∀ status, .jobStatus job.id status ∈
      h.records ++ (job.persist (firedRecord job instant)).toList →
      .jobStatus job.id status ∈ h.records ∨ status = .fired := by
    intro status hrec
    rcases List.mem_append.mp hrec with hrec | hrec
    · exact .inl hrec
    · have heq := (mem_persist.mp hrec).2
      rw [firedRecord] at heq
      cases hkind : job.kind <;> rw [hkind] at heq <;> cases heq
      exact .inr rfl
  refine ⟨?_, fun hkind x hx ↦ ?_, fun hkind ↦ ?_, fun x hx hrec ↦ ?_, fun hkind hrec ↦ ?_,
    fun hkind x hrec ↦ ?_, fun hdurable hkind x hx ↦ ?_, fun hdurable hkind _ ↦ ?_,
    fun status hrec ↦ ?_⟩
  · refine List.pairwise_append.mpr ⟨ht.increasing, List.pairwise_singleton _ _, ?_⟩
    intro x hx y hy
    rw [List.mem_singleton.mp hy]
    exact hnext.later x hx
  · rcases List.mem_append.mp hx with hx | hx
    · exact ht.onTime hkind x hx
    · rw [List.mem_singleton.mp hx]
      exact hnext.onTime hkind
  · rw [(hfresh hkind).1]
    exact le_rfl
  · rcases List.mem_append.mp hx with hx | hx
    · exact ht.apart x hx (hinstant x hrec)
    · rw [List.mem_singleton.mp hx] at hrec
      exact hnext.notMissed (hinstant instant hrec)
  · rcases hstatus .missed hrec with hrec | hrec
    · exact absurd hrec (hfresh hkind).2
    · cases hrec
  · exact ht.noInstants hkind x (hinstant x hrec)
  · rcases List.mem_append.mp hx with hx | hx
    · exact List.mem_append_left _ (ht.fired hdurable hkind x hx)
    · refine List.mem_append_right _ (mem_persist.mpr ⟨hdurable, ?_⟩)
      rw [List.mem_singleton.mp hx, firedRecord, hkind]
  · refine ⟨.fired, List.mem_append_right _ (mem_persist.mpr ⟨hdurable, ?_⟩)⟩
    rw [firedRecord, hkind]
  · rcases hstatus status hrec with hrec | rfl
    · exact ht.inactive status hrec
    · exact fun hactive ↦ by cases hactive

theorem status_fire_oneShot (hkind : state.job.kind = .oneShot) :
    (fire managed state instant).state.status = .fired := by
  simp only [fire, hkind]

/-- **An instant that comes next may fire.** -/
theorem sound_fire (ha : state.status = .active)
    (hnext : ∀ h, Tracked cron state h → Next cron state.job h instant) :
    Sound cron state (fire managed state instant).effect where
  job := rfl
  recordId record hrec := by
    obtain ⟨-, rfl⟩ := mem_persist.mp hrec
    exact id_firedRecord state.job instant
  notCreated job hrec := by
    have heq := (mem_persist.mp hrec).2
    rw [firedRecord] at heq
    cases hkind : state.job.kind <;> rw [hkind] at heq <;> cases heq
  reportJob d hd := by
    rw [List.mem_singleton.mp hd]
  tracked h ht := by
    have hlive := ht.live ha
    have htold := ht.told.add_fired (hnext h ht) hlive.fresh
    refine ⟨htold, fun hactive ↦ ?_⟩
    have hkind : state.job.kind = .recurring := by
      cases hkind : state.job.kind with
      | recurring => rfl
      | oneShot =>
        have hfired : (fire managed state instant).state.status = .fired :=
          status_fire_oneShot hkind
        cases hfired.symm.trans hactive
    refine ⟨fun _ x hx ↦ ?_, fun x hrec ↦ ?_, fun _ x hx ↦ ?_, fun hone ↦ ?_⟩
    · rcases List.mem_append.mp hx with hx | hx
      · exact (hlive.reported_le hkind x hx).trans (le_max_left _ _)
      · rw [List.mem_singleton.mp hx]
        exact le_max_right _ _
    · rcases List.mem_append.mp hrec with hrec | hrec
      · exact (hlive.missed_le x hrec).trans (le_max_left _ _)
      · have heq := (mem_persist.mp hrec).2
        rw [firedRecord, hkind] at heq
        cases heq
    · cases hx
    · have hone : state.job.kind = .oneShot := hone
      rw [hkind] at hone
      cases hone

/-- An instant that comes next may be put off. -/
theorem sound_coalesce (ha : state.status = .active)
    (hnext : ∀ h, Tracked cron state h → Next cron state.job h instant) :
    Sound cron state ⟨{ state with
      pendingCoalesced := some instant
      cursor := max state.cursor instant }, [], []⟩ where
  job := rfl
  recordId record hrec := by cases hrec
  notCreated job hrec := by cases hrec
  reportJob d hd := by cases hd
  tracked h ht := by
    rw [History.add, List.map_nil, List.append_nil, List.append_nil]
    have hlive := ht.live ha
    refine ⟨ht.told, fun _ ↦ ⟨fun hkind x hx ↦ ?_, fun x hrec ↦ ?_, fun _ x hx ↦ ?_, hlive.fresh⟩⟩
    · exact (hlive.reported_le hkind x hx).trans (le_max_left _ _)
    · exact (hlive.missed_le x hrec).trans (le_max_left _ _)
    · rw [← Option.some.inj hx]
      exact ⟨le_max_right _ _, hnext h ht⟩

/-- **A look at a job.** -/
theorem sound_evaluate {now : ℤ} {busy : Bool} :
    Sound cron state (evaluate cron.lastFire now busy managed state).effect := by
  unfold evaluate
  by_cases ha : state.status = .active
  · rw [if_neg (not_not.mpr ha)]
    by_cases hexpires : expires now state = true
    · rw [if_pos hexpires]
      exact sound_status (fun h ↦ by cases h) fun h ↦ by cases h
    · rw [if_neg hexpires]
      cases htarget : target cron.lastFire now state with
      | none => exact sound_idle
      | some candidate =>
        cases candidate with
        | none => exact sound_idle
        | some instant =>
          have hnext : ∀ h, Tracked cron state h → Next cron state.job h instant :=
            fun h ht ↦ ht.next_of_target ha htarget
          cases busy with
          | true => exact sound_coalesce ha hnext
          | false => exact sound_fire ha hnext
  · rw [if_pos ha]
    exact sound_idle

end Sound

/-! ## Downtime -/

section Resume

variable {cron : CronSearch} {now : ℤ} {state : JobState}

/-- A whole minute that has come is one of the minutes that are over. -/
theorem le_floorMinute {x : ℤ} (hdvd : minuteMs ∣ x) (hle : x ≤ now) : x ≤ floorMinute now := by
  obtain ⟨k, rfl⟩ := hdvd
  rw [floorMinute, mul_comm]
  have hpos : 0 < minuteMs := by decide
  exact Int.mul_le_mul_of_nonneg_right
    ((Int.le_ediv_iff_mul_le hpos).mpr (by rwa [mul_comm])) hpos.le

/-- The instants that are missed come after the cursor and are over. -/
theorem sound_resumed {missed : List ℤ} (hkind : state.job.kind = .recurring)
    (hmissed : ∀ x ∈ missed, state.cursor < x ∧ x ≤ floorMinute now) :
    (state.status = .active → Sound cron state
      { state :=
          { state with
            missedInstants := state.missedInstants ++ missed
            cursor := max state.cursor (floorMinute now) }
        records := missed.map fun instant ↦ .jobMissedInstant state.job.id instant
        reports := [] }) := by
  intro ha
  have hmem : ∀ {record}, record ∈ (missed.map fun instant ↦
      SchedulerRecord.jobMissedInstant state.job.id instant) →
      ∃ x ∈ missed, record = .jobMissedInstant state.job.id x := by
    intro record hrec
    obtain ⟨x, hx, rfl⟩ := List.mem_map.mp hrec
    exact ⟨x, hx, rfl⟩
  refine ⟨rfl, fun record hrec ↦ ?_, fun job hrec ↦ ?_, fun d hd ↦ ?_, fun h ht ↦ ?_⟩
  · obtain ⟨x, -, rfl⟩ := hmem hrec
    rfl
  · obtain ⟨x, -, heq⟩ := hmem hrec
    cases heq
  · cases hd
  · rw [History.add, List.map_nil, List.append_nil]
    have hlive := ht.live ha
    have hbound : ∀ x, .jobMissedInstant state.job.id x ∈
        (missed.map fun instant ↦ SchedulerRecord.jobMissedInstant state.job.id instant) →
        state.cursor < x ∧ x ≤ floorMinute now := by
      intro x hrec
      obtain ⟨y, hy, heq⟩ := hmem hrec
      obtain ⟨-, rfl⟩ := SchedulerRecord.jobMissedInstant.inj heq
      exact hmissed x hy
    refine ⟨ht.told.addRecords (fun status hrec ↦ ?_) fun x hrec ↦ ⟨hkind, fun hx ↦ ?_⟩,
      fun _ ↦ ⟨fun _ x hx ↦ ?_, fun x hrec ↦ ?_, fun _ x hx ↦ ?_, fun hone ↦ ?_⟩⟩
    · obtain ⟨x, -, heq⟩ := hmem hrec
      cases heq
    · exact (hlive.reported_le hkind x hx).not_gt (hbound x hrec).1
    · exact (hlive.reported_le hkind x hx).trans (le_max_left _ _)
    · rcases List.mem_append.mp hrec with hrec | hrec
      · exact (hlive.missed_le x hrec).trans (le_max_left _ _)
      · exact (hbound x hrec).2.trans (le_max_right _ _)
    · obtain ⟨hle, hnext⟩ := hlive.pending hkind x hx
      refine ⟨hle.trans (le_max_left _ _), hnext.later, fun hrec ↦ ?_, hnext.onTime⟩
      rcases List.mem_append.mp hrec with hrec | hrec
      · exact hnext.notMissed hrec
      · exact hle.not_gt (hbound x hrec).1
    · have hone : state.job.kind = .oneShot := hone
      rw [hkind] at hone
      cases hone

theorem sound_resumeRecurring (ha : state.status = .active)
    (hkind : state.job.kind = .recurring) : Sound cron state (resumeRecurring cron now state) := by
  unfold resumeRecurring
  cases hs : state.job.cronSource with
  | none => exact sound_idle
  | some expr =>
    by_cases hdurable : state.job.durable = true
    · simp only [if_pos hdurable]
      cases hf : cron.search expr with
      | none => exact sound_idle
      | some f =>
        refine sound_resumed hkind (fun x hx ↦ ?_) ha
        obtain ⟨hlt, hdvd, -, hle⟩ := mem_probes hf (List.mem_filter.mp hx).1
        exact ⟨hlt, le_floorMinute hdvd hle⟩
    · simp only [if_neg hdurable]
      exact sound_resumed hkind (fun x hx ↦ absurd hx List.not_mem_nil) ha

theorem sound_resumeOneShot (ha : state.status = .active)
    (hkind : state.job.kind = .oneShot) : Sound cron state (resumeOneShot now state) := by
  unfold resumeOneShot
  cases hs : state.job.fireAt with
  | none => exact sound_idle
  | some fireAt =>
    by_cases hover : now < fireAt ∨ state.firedInstants.contains fireAt = true
    · simp only [if_pos hover]
      exact sound_idle
    · simp only [if_neg hover]
      by_cases hdurable : state.job.durable = true
      · have hsound : Sound cron state ⟨{ state with status := .missed },
            (state.job.persist (.jobStatus state.job.id .missed)).toList, []⟩ :=
          sound_status (fun h ↦ by cases h) fun _ h ht ↦ ((ht.live ha).fresh hkind).1
        rw [CronJob.persist, if_pos hdurable] at hsound
        rw [if_pos hdurable]
        exact hsound
      · have hsound : Sound cron state ⟨{ state with status := .dropped },
            (state.job.persist (.jobStatus state.job.id .dropped)).toList, []⟩ :=
          sound_status (fun h ↦ by cases h) fun h ↦ by cases h
        rw [CronJob.persist, if_neg hdurable] at hsound
        rw [if_neg hdurable]
        exact hsound

/-- **Coming up after a downtime.** -/
theorem sound_resume : Sound cron state (resume cron now state) := by
  unfold resume
  by_cases ha : state.status = .active
  · rw [if_neg (not_not.mpr ha)]
    by_cases hexpires : expires now state = true
    · rw [if_pos hexpires]
      exact sound_status (fun h ↦ by cases h) fun h ↦ by cases h
    · rw [if_neg hexpires]
      cases hkind : state.job.kind with
      | recurring => exact sound_resumeRecurring ha hkind
      | oneShot => exact sound_resumeOneShot ha hkind
  · rw [if_pos ha]
    exact sound_idle

end Resume

end QwenHarness.Scheduler
