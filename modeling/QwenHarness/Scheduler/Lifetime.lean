import QwenHarness.Scheduler.History

/-!
# The scheduler over its lifetime

Jobs are made and deleted, polled and resumed, and the process may come up again from its log at any
point. A scheduler without a log is one that never does.
-/

namespace QwenHarness.Scheduler

open Policy

/-- Where ids come from: none is drawn twice. -/
structure IdSource where
  next : ℕ → String
  injective : next.Injective

structure World where
  jobs : List JobState
  /-- The durable log. It takes every record. -/
  log : List SchedulerRecord
  /-- How many ids were drawn. -/
  drawn : ℕ

inductive Op where
  | create (createdAt : ℤ) (input : CreateJobInput)
  | delete (id : String)
  | due (now : ℤ) (busy : Bool) (managed : ManagedPolicy)
  | resume (now : ℤ)
  | restart

/-- What is recorded of a job that is made. -/
def createdRecords : Except CreateError CronJob → List SchedulerRecord
  | .ok job => (job.persist (.jobCreated job)).toList
  | .error _ => []

/-- `delete`, for one job. -/
def delete (id : String) (state : JobState) : Effect :=
  if state.id = id ∧ state.status ≠ .deleted then
    ⟨{ state with status := .deleted },
      (state.job.persist (.jobDeleted state.job.id)).toList, []⟩
  else ⟨state, [], []⟩

section Step

variable (cron : CronSearch) (parses : String → Bool) (jitter : String → String → ℤ → ℤ)
  (ids : IdSource)

def World.create (createdAt : ℤ) (input : CreateJobInput) (w : World) : World :=
  let made := Scheduler.create parses jitter createdAt (ids.next w.drawn) input (fun _ ↦ true)
    w.jobs
  { jobs := made.2
    log := w.log ++ createdRecords made.1
    drawn := if maxJobsPerOwner ≤ liveCount input.owner w.jobs then w.drawn else w.drawn + 1 }

/-- Every job in turn. -/
def World.touch (look : JobState → Effect) (w : World) : World × List DueResult :=
  ({ w with
      jobs := w.jobs.map fun state ↦ (look state).state
      log := w.log ++ w.jobs.flatMap fun state ↦ (look state).records },
    w.jobs.flatMap fun state ↦ (look state).reports)

/-- A new process has what the log has. -/
def World.restart (w : World) : World :=
  { w with jobs := (foldRecords w.log).map FoldedJob.restore }

def World.step (op : Op) (w : World) : World × List DueResult :=
  match op with
  | .create createdAt input => (w.create parses jitter ids createdAt input, [])
  | .delete id => w.touch (delete id)
  | .due now busy managed =>
    w.touch fun state ↦ (evaluate cron.lastFire now busy managed state).effect
  | .resume now => w.touch (resume cron now)
  | .restart => (w.restart, [])

/-- A run: where it ends, and what was reported. -/
structure Run where
  world : World
  reports : List DueResult

def Run.step (r : Run) (op : Op) : Run :=
  let stepped := r.world.step cron parses jitter ids op
  ⟨stepped.1, r.reports ++ stepped.2⟩

/-- A run from nothing. -/
def run (ops : List Op) : Run :=
  ops.foldl (Run.step cron parses jitter ids) ⟨⟨[], [], 0⟩, []⟩

end Step

theorem sound_delete {cron : CronSearch} {id : String} {state : JobState} :
    Sound cron state (delete id state) := by
  unfold delete
  by_cases h : state.id = id ∧ state.status ≠ .deleted
  · rw [if_pos h]
    refine sound_stop rfl (fun h ↦ by cases h) rfl (fun job h ↦ ?_) (fun x h ↦ ?_)
      fun status h ↦ ?_
    · cases h
    · cases h
    · cases h
  · rw [if_neg h]
    exact sound_idle

/-! ## What the log has of a job -/

/-- An entry has all that the records say. -/
structure Folded (log : List SchedulerRecord) (entry : FoldedJob) : Prop where
  fired : ∀ x, .jobFired entry.job.id x ∈ log → x ∈ entry.firedInstants
  missed : ∀ x, .jobMissedInstant entry.job.id x ∈ log → x ∈ entry.missedInstants
  status : ∀ status, .jobStatus entry.job.id status ∈ log →
    .jobStatus entry.job.id entry.status ∈ log

section Fold

variable {log : List SchedulerRecord} {entry : FoldedJob} {entries : List FoldedJob}
  {record : SchedulerRecord} {instant x : ℤ} {instants : List ℤ}

theorem mem_addInstant : x ∈ addInstant instant instants ↔ x = instant ∨ x ∈ instants := by
  rw [addInstant]
  by_cases h : instants.contains instant = true
  · rw [if_pos h]
    refine ⟨.inr, fun hx ↦ ?_⟩
    rcases hx with rfl | hx
    · exact List.contains_iff_mem.mp h
    · exact hx
  · rw [if_neg h, List.mem_append, List.mem_singleton, or_comm]

theorem job_note : (entry.note record).job = entry.job := by
  unfold FoldedJob.note
  split
  · cases record <;> rfl
  · rfl

theorem mem_firedInstants_note : x ∈ (entry.note record).firedInstants ↔
    record = .jobFired entry.job.id x ∨ x ∈ entry.firedInstants := by
  unfold FoldedJob.note
  split
  · rename_i hid
    cases record with
    | jobFired id instant =>
      obtain rfl : id = entry.job.id := hid
      rw [mem_addInstant, SchedulerRecord.jobFired.injEq, eq_self_iff_true, true_and, eq_comm]
    | jobCreated job => exact ⟨.inr, fun h ↦ h.resolve_left fun h ↦ by cases h⟩
    | jobDeleted id => exact ⟨.inr, fun h ↦ h.resolve_left fun h ↦ by cases h⟩
    | jobStatus id status => exact ⟨.inr, fun h ↦ h.resolve_left fun h ↦ by cases h⟩
    | jobMissedInstant id instant => exact ⟨.inr, fun h ↦ h.resolve_left fun h ↦ by cases h⟩
  · rename_i hid
    exact ⟨.inr, fun h ↦ h.resolve_left fun h ↦ hid (congrArg SchedulerRecord.id h)⟩

theorem mem_missedInstants_note : x ∈ (entry.note record).missedInstants ↔
    record = .jobMissedInstant entry.job.id x ∨ x ∈ entry.missedInstants := by
  unfold FoldedJob.note
  split
  · rename_i hid
    cases record with
    | jobMissedInstant id instant =>
      obtain rfl : id = entry.job.id := hid
      rw [mem_addInstant, SchedulerRecord.jobMissedInstant.injEq, eq_self_iff_true, true_and,
        eq_comm]
    | jobCreated job => exact ⟨.inr, fun h ↦ h.resolve_left fun h ↦ by cases h⟩
    | jobDeleted id => exact ⟨.inr, fun h ↦ h.resolve_left fun h ↦ by cases h⟩
    | jobStatus id status => exact ⟨.inr, fun h ↦ h.resolve_left fun h ↦ by cases h⟩
    | jobFired id instant => exact ⟨.inr, fun h ↦ h.resolve_left fun h ↦ by cases h⟩
  · rename_i hid
    exact ⟨.inr, fun h ↦ h.resolve_left fun h ↦ hid (congrArg SchedulerRecord.id h)⟩

/-- The status of an entry is the last one recorded. -/
theorem status_note : record = .jobStatus entry.job.id (entry.note record).status ∨
    (∀ status, record ≠ .jobStatus entry.job.id status) ∧
      (entry.note record).status = entry.status := by
  unfold FoldedJob.note
  split
  · rename_i hid
    cases record with
    | jobStatus id status =>
      obtain rfl : id = entry.job.id := hid
      exact .inl rfl
    | jobCreated job => exact .inr ⟨fun status h ↦ (by cases h), rfl⟩
    | jobDeleted id => exact .inr ⟨fun status h ↦ (by cases h), rfl⟩
    | jobFired id instant => exact .inr ⟨fun status h ↦ (by cases h), rfl⟩
    | jobMissedInstant id instant => exact .inr ⟨fun status h ↦ (by cases h), rfl⟩
  · rename_i hid
    exact .inr ⟨fun status h ↦ hid (congrArg SchedulerRecord.id h), rfl⟩

theorem Folded.note (hf : Folded log entry) : Folded (log ++ [record]) (entry.note record) := by
  refine ⟨fun x h ↦ ?_, fun x h ↦ ?_, fun status h ↦ ?_⟩
  · rw [job_note, List.mem_append, List.mem_singleton] at h
    rw [mem_firedInstants_note]
    rcases h with h | h
    · exact .inr (hf.fired x h)
    · exact .inl h.symm
  · rw [job_note, List.mem_append, List.mem_singleton] at h
    rw [mem_missedInstants_note]
    rcases h with h | h
    · exact .inr (hf.missed x h)
    · exact .inl h.symm
  · rw [job_note, List.mem_append, List.mem_singleton] at h ⊢
    rcases @status_note entry record with hrec | ⟨hne, hstatus⟩
    · exact .inr hrec.symm
    · rw [hstatus]
      exact .inl (hf.status status (h.resolve_right fun h ↦ hne status h.symm))

/-- A record that no job is made by. -/
theorem forall_mem_foldRecord {P : FoldedJob → Prop} (hcreated : ∀ job, record ≠ .jobCreated job)
    (h : ∀ entry ∈ entries, P (entry.note record)) :
    ∀ entry ∈ foldRecord entries record, P entry := by
  intro entry hentry
  cases record with
  | jobCreated job => exact absurd rfl (hcreated job)
  | jobDeleted id =>
    have hmem := (List.mem_filter.mp hentry).1
    have hnote : entry.note (.jobDeleted id) = entry := by
      unfold FoldedJob.note
      split <;> rfl
    have hP := h entry hmem
    rwa [hnote] at hP
  | jobStatus id status =>
    obtain ⟨entry, hmem, rfl⟩ := List.mem_map.mp hentry
    exact h entry hmem
  | jobFired id instant =>
    obtain ⟨entry, hmem, rfl⟩ := List.mem_map.mp hentry
    exact h entry hmem
  | jobMissedInstant id instant =>
    obtain ⟨entry, hmem, rfl⟩ := List.mem_map.mp hentry
    exact h entry hmem

/-- The ids of the entries. -/
def entryIds (entries : List FoldedJob) : List String := entries.map fun entry ↦ entry.job.id

theorem entryIds_foldRecord_sublist (hcreated : ∀ job, record ≠ .jobCreated job) :
    (entryIds (foldRecord entries record)).Sublist (entryIds entries) := by
  have hmap : entryIds (entries.map fun entry ↦ entry.note record) = entryIds entries := by
    rw [entryIds, List.map_map]
    exact List.map_congr_left fun entry _ ↦ congrArg CronJob.id job_note
  cases record with
  | jobCreated job => exact absurd rfl (hcreated job)
  | jobDeleted id => exact List.filter_sublist.map _
  | jobStatus id status => exact hmap ▸ List.Sublist.refl _
  | jobFired id instant => exact hmap ▸ List.Sublist.refl _
  | jobMissedInstant id instant => exact hmap ▸ List.Sublist.refl _

theorem foldRecord_created {job : CronJob} (hfresh : job.id ∉ entryIds entries) :
    foldRecord entries (.jobCreated job) = entries ++ [⟨job, .active, [], []⟩] := by
  refine if_neg fun h ↦ hfresh ?_
  obtain ⟨entry, hentry, hid⟩ := List.any_eq_true.mp h
  exact List.mem_map.mpr ⟨entry, hentry, of_decide_eq_true hid⟩

end Fold

/-! ## What holds throughout -/

/-- What a run told of one job. -/
def Run.history (r : Run) (id : String) : History where
  reported := (r.reports.filter fun d ↦ d.job.id = id).map DueResult.scheduledInstant
  records := r.world.log.filter fun record ↦ record.id = id

/-- What holds of a run. `made` are the jobs that were ever made. -/
structure Consistent (cron : CronSearch) (ids : IdSource) (made : List CronJob) (r : Run) :
    Prop where
  drawn : ∀ job ∈ made, ∃ k < r.world.drawn, job.id = ids.next k
  distinct : ∀ a ∈ made, ∀ b ∈ made, a.id = b.id → a = b
  told : ∀ job ∈ made, Told cron job (r.history job.id)
  jobMade : ∀ state ∈ r.world.jobs, state.job ∈ made
  live : ∀ state ∈ r.world.jobs, state.status = .active → Live cron state (r.history state.id)
  nodup : (r.world.jobs.map JobState.id).Nodup
  recordMade : ∀ record ∈ r.world.log, ∃ job ∈ made, job.id = record.id
  reportMade : ∀ d ∈ r.reports, d.job ∈ made
  entryMade : ∀ entry ∈ foldRecords r.world.log, entry.job ∈ made ∧ entry.job.durable = true
  folded : ∀ entry ∈ foldRecords r.world.log, Folded r.world.log entry
  entriesNodup : (entryIds (foldRecords r.world.log)).Nodup

section Key

variable {α β : Type} {key : α → String} {f : α → List β} {tag : β → String} {rows : List α}
  {id : String}

theorem filter_flatMap_of_not_mem (htag : ∀ a ∈ rows, ∀ b ∈ f a, tag b = key a)
    (hid : id ∉ rows.map key) : (rows.flatMap f).filter (fun b ↦ tag b = id) = [] := by
  refine List.filter_eq_nil_iff.mpr fun b hb h ↦ hid ?_
  obtain ⟨a, ha, hb⟩ := List.mem_flatMap.mp hb
  exact List.mem_map.mpr ⟨a, ha, (htag a ha b hb).symm.trans (of_decide_eq_true h)⟩

/-- Under distinct keys, what comes of one row is found by its key. -/
theorem filter_flatMap_of_mem {a : α} (hnodup : (rows.map key).Nodup)
    (htag : ∀ a ∈ rows, ∀ b ∈ f a, tag b = key a) (ha : a ∈ rows) :
    (rows.flatMap f).filter (fun b ↦ tag b = key a) = f a := by
  induction rows with
  | nil => cases ha
  | cons x xs ih =>
    rw [List.map_cons, List.nodup_cons] at hnodup
    have hxs : ∀ a ∈ xs, ∀ b ∈ f a, tag b = key a := fun a ha ↦
      htag a (List.mem_cons_of_mem x ha)
    rw [List.flatMap_cons, List.filter_append]
    rcases List.mem_cons.mp ha with rfl | ha
    · rw [filter_flatMap_of_not_mem hxs hnodup.1, List.append_nil]
      exact List.filter_eq_self.mpr fun b hb ↦
        decide_eq_true (htag a List.mem_cons_self b hb)
    · have hne : key x ≠ key a := fun heq ↦
        hnodup.1 (List.mem_map.mpr ⟨a, ha, heq.symm⟩)
      rw [ih hnodup.2 hxs ha, List.filter_eq_nil_iff.mpr, List.nil_append]
      intro b hb h
      exact hne ((htag x List.mem_cons_self b hb).symm.trans (of_decide_eq_true h))

end Key

section Touch

variable {cron : CronSearch} {ids : IdSource} {made : List CronJob} {r : Run}
  {look : JobState → Effect} {state : JobState} {id : String}

/-- The run after a step on every job. -/
def Run.touch (r : Run) (look : JobState → Effect) : Run :=
  ⟨(r.world.touch look).1, r.reports ++ (r.world.touch look).2⟩

theorem history_touch_of_not_mem (hsound : ∀ state, Sound cron state (look state))
    (hid : id ∉ r.world.jobs.map JobState.id) : (r.touch look).history id = r.history id := by
  dsimp only [Run.history, Run.touch, World.touch]
  rw [List.filter_append, List.filter_append,
    filter_flatMap_of_not_mem (fun state _ d hd ↦
      congrArg CronJob.id ((hsound state).reportJob d hd)) hid,
    filter_flatMap_of_not_mem (fun state _ ↦ (hsound state).recordId) hid, List.append_nil,
    List.append_nil]

theorem history_touch_of_mem (hsound : ∀ state, Sound cron state (look state))
    (hnodup : (r.world.jobs.map JobState.id).Nodup) (hmem : state ∈ r.world.jobs) :
    (r.touch look).history state.id = (r.history state.id).add (look state) := by
  dsimp only [Run.history, Run.touch, World.touch, History.add]
  rw [List.filter_append, List.filter_append, List.map_append,
    filter_flatMap_of_mem hnodup (fun state _ d hd ↦
      congrArg CronJob.id ((hsound state).reportJob d hd)) hmem,
    filter_flatMap_of_mem hnodup (fun state _ ↦ (hsound state).recordId) hmem]

/-- Records that no job is made by, in a row. -/
theorem fold_append {log records : List SchedulerRecord}
    (hcreated : ∀ record ∈ records, ∀ job, record ≠ .jobCreated job)
    {P : FoldedJob → Prop} (hP : ∀ entry record, P entry → P (FoldedJob.note entry record))
    (hentries : ∀ entry ∈ foldRecords log, P entry ∧ Folded log entry)
    (hnodup : (entryIds (foldRecords log)).Nodup) :
    (∀ entry ∈ foldRecords (log ++ records), P entry ∧ Folded (log ++ records) entry) ∧
      (entryIds (foldRecords (log ++ records))).Nodup := by
  induction records generalizing log with
  | nil => exact ⟨by rwa [List.append_nil], by rwa [List.append_nil]⟩
  | cons record records ih =>
    have hrecord := hcreated record List.mem_cons_self
    have hstep : foldRecords (log ++ [record]) = foldRecord (foldRecords log) record :=
      List.foldl_append
    rw [List.append_cons]
    refine ih (fun record' h ↦ hcreated record' (List.mem_cons_of_mem _ h)) ?_ ?_
    · rw [hstep]
      exact forall_mem_foldRecord hrecord fun entry hentry ↦
        ⟨hP entry record (hentries entry hentry).1, (hentries entry hentry).2.note⟩
    · rw [hstep]
      exact hnodup.sublist (entryIds_foldRecord_sublist hrecord)

/-- **A step on every job keeps what holds.** -/
theorem Consistent.touch (hinv : Consistent cron ids made r)
    (hsound : ∀ state, Sound cron state (look state)) :
    Consistent cron ids made (r.touch look) := by
  have hid : ∀ state, (look state).state.id = state.id := fun state ↦
    congrArg CronJob.id (hsound state).job
  have htracked : ∀ state ∈ r.world.jobs,
      Tracked cron (look state).state ((r.touch look).history state.id) := by
    intro state hmem
    rw [history_touch_of_mem hsound hinv.nodup hmem]
    exact (hsound state).tracked _
      ⟨hinv.told state.job (hinv.jobMade state hmem), hinv.live state hmem⟩
  have hcreated : ∀ record ∈ r.world.jobs.flatMap (fun state ↦ (look state).records),
      ∀ job, record ≠ .jobCreated job := by
    rintro record hrec job rfl
    obtain ⟨state, -, hrec⟩ := List.mem_flatMap.mp hrec
    exact (hsound state).notCreated job hrec
  have hfold := fold_append hcreated
    (P := fun entry ↦ entry.job ∈ made ∧ entry.job.durable = true)
    (fun entry record h ↦ by rwa [job_note])
    (fun entry hentry ↦ ⟨hinv.entryMade entry hentry, hinv.folded entry hentry⟩)
    hinv.entriesNodup
  refine
    { drawn := hinv.drawn
      distinct := hinv.distinct
      told := fun job hjob ↦ ?_
      jobMade := fun state' hmem ↦ ?_
      live := fun state' hmem ha ↦ ?_
      nodup := ?_
      recordMade := fun record hrec ↦ ?_
      reportMade := fun d hd ↦ ?_
      entryMade := fun entry hentry ↦ (hfold.1 entry hentry).1
      folded := fun entry hentry ↦ (hfold.1 entry hentry).2
      entriesNodup := hfold.2 }
  · by_cases hmem : job.id ∈ r.world.jobs.map JobState.id
    · obtain ⟨state, hstate, hsame⟩ := List.mem_map.mp hmem
      obtain rfl : state.job = job := hinv.distinct _ (hinv.jobMade state hstate) job hjob hsame
      have htold := (htracked state hstate).told
      rwa [(hsound state).job] at htold
    · rw [history_touch_of_not_mem hsound hmem]
      exact hinv.told job hjob
  · obtain ⟨state, hstate, rfl⟩ := List.mem_map.mp hmem
    rw [(hsound state).job]
    exact hinv.jobMade state hstate
  · obtain ⟨state, hstate, rfl⟩ := List.mem_map.mp hmem
    rw [hid]
    exact (htracked state hstate).live ha
  · have hmap : (r.touch look).world.jobs.map JobState.id = r.world.jobs.map JobState.id := by
      dsimp only [Run.touch, World.touch]
      rw [List.map_map]
      exact List.map_congr_left fun state _ ↦ hid state
    rw [hmap]
    exact hinv.nodup
  · rcases List.mem_append.mp hrec with hrec | hrec
    · exact hinv.recordMade record hrec
    · obtain ⟨state, hstate, hrec⟩ := List.mem_flatMap.mp hrec
      exact ⟨state.job, hinv.jobMade state hstate, ((hsound state).recordId record hrec).symm⟩
  · rcases List.mem_append.mp hd with hd | hd
    · exact hinv.reportMade d hd
    · obtain ⟨state, hstate, hd⟩ := List.mem_flatMap.mp hd
      rw [(hsound state).reportJob d hd]
      exact hinv.jobMade state hstate

end Touch

/-! ## A new process -/

section Restart

variable {cron : CronSearch} {ids : IdSource} {made : List CronJob} {r : Run}

theorem le_foldl_max {xs : List ℤ} {start x : ℤ} (h : x ∈ xs) : x ≤ xs.foldl max start := by
  have hstart : ∀ (xs : List ℤ) (start : ℤ), start ≤ xs.foldl max start := by
    intro xs
    induction xs with
    | nil => exact fun start ↦ le_rfl
    | cons y ys ih => exact fun start ↦ (le_max_left start y).trans (ih _)
  induction xs generalizing start with
  | nil => cases h
  | cons y ys ih =>
    rcases List.mem_cons.mp h with rfl | h
    · exact (le_max_right start x).trans (hstart ys _)
    · exact ih h

theorem mem_records {id : String} {record : SchedulerRecord}
    (h : record ∈ (r.history id).records) : record ∈ r.world.log :=
  (List.mem_filter.mp h).1

/-- **What the log has of a job is the job**, as far as reports go. -/
theorem Consistent.live_restore (hc : Consistent cron ids made r) {entry : FoldedJob}
    (hentry : entry ∈ foldRecords r.world.log) (ha : entry.restore.status = .active) :
    Live cron entry.restore (r.history entry.restore.id) := by
  have hfolded := hc.folded entry hentry
  obtain ⟨hmade, hdurable⟩ := hc.entryMade entry hentry
  have htold := hc.told entry.job hmade
  have hstatus : ∀ status, .jobStatus entry.job.id status ∉ (r.history entry.job.id).records := by
    intro status hrec
    refine htold.inactive entry.status (List.mem_filter.mpr ⟨?_, decide_eq_true rfl⟩) ha
    exact hfolded.status status (mem_records hrec)
  refine ⟨fun hkind x hx ↦ ?_, fun x hrec ↦ ?_, fun _ x hx ↦ ?_, fun hkind ↦ ⟨?_, hstatus _⟩⟩
  · refine le_foldl_max (List.mem_append_left _ (hfolded.fired x ?_))
    exact mem_records (htold.fired hdurable hkind x hx)
  · exact le_foldl_max (List.mem_append_right _ (hfolded.missed x (mem_records hrec)))
  · cases hx
  · by_contra hne
    obtain ⟨status, hrec⟩ := htold.settled hdurable hkind hne
    exact hstatus status hrec

/-- The run after the process came up again. -/
def Run.restart (r : Run) : Run := ⟨r.world.restart, r.reports⟩

theorem Consistent.restart (hc : Consistent cron ids made r) :
    Consistent cron ids made r.restart := by
  have hjob : ∀ entry ∈ foldRecords r.world.log, entry.restore.job = entry.job := by
    intro entry hentry
    have hdurable := (hc.entryMade entry hentry).2
    rw [FoldedJob.restore, ← hdurable]
  refine
    { drawn := hc.drawn
      distinct := hc.distinct
      told := hc.told
      jobMade := fun state hmem ↦ ?_
      live := fun state hmem ha ↦ ?_
      nodup := ?_
      recordMade := hc.recordMade
      reportMade := hc.reportMade
      entryMade := hc.entryMade
      folded := hc.folded
      entriesNodup := hc.entriesNodup }
  · obtain ⟨entry, hentry, rfl⟩ := List.mem_map.mp hmem
    rw [hjob entry hentry]
    exact (hc.entryMade entry hentry).1
  · obtain ⟨entry, hentry, rfl⟩ := List.mem_map.mp hmem
    exact hc.live_restore hentry ha
  · have hmap : r.restart.world.jobs.map JobState.id = entryIds (foldRecords r.world.log) := by
      dsimp only [Run.restart, World.restart]
      rw [List.map_map]
      exact List.map_congr_left fun entry _ ↦ rfl
    rw [hmap]
    exact hc.entriesNodup

end Restart

/-! ## Making a job -/

section Create

variable {cron : CronSearch} {ids : IdSource} {made : List CronJob} {r : Run}
  {parses : String → Bool} {jitter : String → String → ℤ → ℤ} {createdAt : ℤ}
  {input : CreateJobInput}

/-- Either nothing is made, or a job under the id that was drawn. -/
theorem create_cases {w : World} :
    (∃ drawn, w.drawn ≤ drawn ∧
      w.create parses jitter ids createdAt input = { w with drawn }) ∨
    ∃ job, job.id = ids.next w.drawn ∧
      w.create parses jitter ids createdAt input =
        { jobs := setJob (.new job) w.jobs
          log := w.log ++ (job.persist (.jobCreated job)).toList
          drawn := w.drawn + 1 } := by
  unfold World.create Scheduler.create
  by_cases hlimit : maxJobsPerOwner ≤ liveCount input.owner w.jobs
  · refine .inl ⟨w.drawn, le_rfl, ?_⟩
    simp only [if_pos hlimit, createdRecords, List.append_nil]
  · simp only [if_neg hlimit]
    cases hnew : newJob parses jitter createdAt (ids.next w.drawn) input with
    | error e =>
      refine .inl ⟨w.drawn + 1, Nat.le_succ _, ?_⟩
      simp only [createdRecords, List.append_nil]
    | ok job =>
      refine .inr ⟨job, (newJob_spec hnew).1, ?_⟩
      cases hrec : job.persist (.jobCreated job) with
      | none => simp only [createdRecords, hrec]
      | some record => simp only [createdRecords, hrec, if_true]

/-- The run after a job was made. -/
def Run.withJob (r : Run) (job : CronJob) : Run :=
  ⟨{ jobs := setJob (.new job) r.world.jobs
     log := r.world.log ++ (job.persist (.jobCreated job)).toList
     drawn := r.world.drawn + 1 }, r.reports⟩

theorem Consistent.ne_drawn (hc : Consistent cron ids made r) {job : CronJob}
    (hjob : job ∈ made) : job.id ≠ ids.next r.world.drawn := by
  intro h
  obtain ⟨k, hlt, hid⟩ := hc.drawn job hjob
  exact hlt.ne (ids.injective (hid.symm.trans h))

/-- Of a job that is only made, nothing is told but that it was made. -/
theorem told_created {job : CronJob} {records : List SchedulerRecord}
    (h : ∀ record ∈ records, record = .jobCreated job) : Told cron job ⟨[], records⟩ where
  increasing := .nil
  onTime _ x hx := by cases hx
  once _ := Nat.zero_le 1
  apart x hx := by cases hx
  lapsed _ _ := rfl
  noInstants _ x hrec := by cases h _ hrec
  fired _ _ x hx := by cases hx
  settled _ _ hne := absurd rfl hne
  inactive status hrec := by cases h _ hrec

theorem live_created {job : CronJob} {records : List SchedulerRecord}
    (h : ∀ record ∈ records, record = .jobCreated job) :
    Live cron (.new job) ⟨[], records⟩ where
  reported_le _ x hx := by cases hx
  missed_le x hrec := by cases h _ hrec
  pending _ x hx := by cases hx
  fresh _ := ⟨rfl, fun hrec ↦ by cases h _ hrec⟩

theorem entries_withJob {job : CronJob}
    (hfresh : job.id ∉ entryIds (foldRecords r.world.log))
    (hnodup : (entryIds (foldRecords r.world.log)).Nodup) :
    (∀ entry ∈ foldRecords (r.withJob job).world.log, entry ∈ foldRecords r.world.log ∨
      entry = ⟨job, .active, [], []⟩ ∧ job.durable = true) ∧
      (entryIds (foldRecords (r.withJob job).world.log)).Nodup := by
  dsimp only [Run.withJob]
  cases hdurable : job.durable with
  | false =>
    rw [CronJob.persist, hdurable, if_neg Bool.false_ne_true, Option.toList_none, List.append_nil]
    exact ⟨fun entry ↦ .inl, hnodup⟩
  | true =>
    have hfold : foldRecords (r.world.log ++ [.jobCreated job]) =
        foldRecords r.world.log ++ [⟨job, .active, [], []⟩] :=
      List.foldl_append.trans (foldRecord_created hfresh)
    rw [CronJob.persist, hdurable, if_pos rfl, Option.toList_some, hfold]
    refine ⟨fun entry hentry ↦ ?_, ?_⟩
    · rcases List.mem_append.mp hentry with hentry | hentry
      · exact .inl hentry
      · exact .inr ⟨List.mem_singleton.mp hentry, rfl⟩
    · rw [entryIds, List.map_append]
      refine List.nodup_append.mpr ⟨hnodup, List.nodup_singleton _, fun a ha b hb hab ↦ ?_⟩
      rw [List.mem_singleton.mp hb] at hab
      rw [hab] at ha
      exact hfresh ha

/-- **A job under a new id keeps what holds.** -/
theorem Consistent.withJob (hc : Consistent cron ids made r) {job : CronJob}
    (hid : job.id = ids.next r.world.drawn) :
    Consistent cron ids (made ++ [job]) (r.withJob job) := by
  have hne : ∀ other ∈ made, other.id ≠ job.id := by
    intro other hother
    rw [hid]
    exact hc.ne_drawn hother
  have hrecords : ∀ record ∈ (job.persist (.jobCreated job)).toList,
      job.durable = true ∧ record = .jobCreated job := fun record hrec ↦
    ⟨(mem_persist.mp hrec).1, (mem_persist.mp hrec).2.symm⟩
  have hjobs : (r.withJob job).world.jobs = r.world.jobs ++ [.new job] :=
    setJob_of_fresh fun state hstate ↦ hne state.job (hc.jobMade state hstate)
  have hold : ∀ id, id ≠ job.id → (r.withJob job).history id = r.history id := by
    intro id hother
    have hnone : (job.persist (.jobCreated job)).toList.filter (fun record ↦ record.id = id) =
        [] := by
      refine List.filter_eq_nil_iff.mpr fun record hrec h ↦ hother ?_
      rw [(hrecords record hrec).2] at h
      exact (of_decide_eq_true h).symm
    dsimp only [Run.history, Run.withJob]
    rw [List.filter_append, hnone, List.append_nil]
  have hnew : (r.withJob job).history job.id =
      ⟨[], (job.persist (.jobCreated job)).toList⟩ := by
    dsimp only [Run.history, Run.withJob]
    rw [List.filter_append, List.filter_eq_nil_iff.mpr, List.filter_eq_nil_iff.mpr,
      List.filter_eq_self.mpr, List.nil_append, List.map_nil]
    · intro record hrec
      rw [(hrecords record hrec).2]
      exact decide_eq_true rfl
    · intro record hrec h
      obtain ⟨other, hother, hsame⟩ := hc.recordMade record hrec
      exact hne other hother (hsame.trans (of_decide_eq_true h))
    · intro d hd h
      exact hne d.job (hc.reportMade d hd) (of_decide_eq_true h)
  have hfresh : job.id ∉ entryIds (foldRecords r.world.log) := by
    intro h
    obtain ⟨entry, hentry, hsame⟩ := List.mem_map.mp h
    exact hne entry.job (hc.entryMade entry hentry).1 hsame
  have hother : ∀ record ∈ r.world.log, record.id ≠ job.id := by
    intro record hrec
    obtain ⟨other, hmem, hsame⟩ := hc.recordMade record hrec
    rw [← hsame]
    exact hne other hmem
  obtain ⟨hentries, hentriesNodup⟩ := entries_withJob hfresh hc.entriesNodup
  refine
    { drawn := fun other hmem ↦ ?_
      distinct := fun a ha b hb hsame ↦ ?_
      told := fun other hmem ↦ ?_
      jobMade := fun state hmem ↦ ?_
      live := fun state hmem hactive ↦ ?_
      nodup := ?_
      recordMade := fun record hrec ↦ ?_
      reportMade := fun d hd ↦ List.mem_append_left _ (hc.reportMade d hd)
      entryMade := fun entry hentry ↦ ?_
      folded := fun entry hentry ↦ ?_
      entriesNodup := hentriesNodup }
  · rcases List.mem_append.mp hmem with hmem | hmem
    · obtain ⟨k, hlt, hk⟩ := hc.drawn other hmem
      exact ⟨k, hlt.trans (Nat.lt_succ_self _), hk⟩
    · rw [List.mem_singleton.mp hmem]
      exact ⟨r.world.drawn, Nat.lt_succ_self _, hid⟩
  · rcases List.mem_append.mp ha with ha | ha
    · rcases List.mem_append.mp hb with hb | hb
      · exact hc.distinct a ha b hb hsame
      · rw [List.mem_singleton.mp hb] at hsame
        exact absurd hsame (hne a ha)
    · rcases List.mem_append.mp hb with hb | hb
      · rw [List.mem_singleton.mp ha] at hsame
        exact absurd hsame.symm (hne b hb)
      · rw [List.mem_singleton.mp ha, List.mem_singleton.mp hb]
  · rcases List.mem_append.mp hmem with hmem | hmem
    · rw [hold other.id (hne other hmem)]
      exact hc.told other hmem
    · rw [List.mem_singleton.mp hmem, hnew]
      exact told_created fun record hrec ↦ (hrecords record hrec).2
  · rw [hjobs] at hmem
    rcases List.mem_append.mp hmem with hmem | hmem
    · exact List.mem_append_left _ (hc.jobMade state hmem)
    · rw [List.mem_singleton.mp hmem]
      exact List.mem_append_right _ (List.mem_singleton_self job)
  · rw [hjobs] at hmem
    rcases List.mem_append.mp hmem with hmem | hmem
    · rw [hold state.id (hne state.job (hc.jobMade state hmem))]
      exact hc.live state hmem hactive
    · obtain rfl := List.mem_singleton.mp hmem
      change Live cron (.new job) ((r.withJob job).history job.id)
      rw [hnew]
      exact live_created fun record hrec ↦ (hrecords record hrec).2
  · rw [hjobs, List.map_append]
    refine List.nodup_append.mpr ⟨hc.nodup, List.nodup_singleton _, fun a ha b hb ↦ ?_⟩
    obtain ⟨state, hstate, rfl⟩ := List.mem_map.mp ha
    rw [List.mem_singleton.mp hb]
    exact hne state.job (hc.jobMade state hstate)
  · rcases List.mem_append.mp hrec with hrec | hrec
    · obtain ⟨other, hmem, hsame⟩ := hc.recordMade record hrec
      exact ⟨other, List.mem_append_left _ hmem, hsame⟩
    · rw [(hrecords record hrec).2]
      exact ⟨job, List.mem_append_right _ (List.mem_singleton_self job), rfl⟩
  · rcases hentries entry hentry with hentry | ⟨rfl, hdurable⟩
    · obtain ⟨hmade, hdurable⟩ := hc.entryMade entry hentry
      exact ⟨List.mem_append_left _ hmade, hdurable⟩
    · exact ⟨List.mem_append_right _ (List.mem_singleton_self job), hdurable⟩
  · have hcreated : ∀ record ∈ (r.withJob job).world.log,
        (∀ other, record ≠ .jobCreated other) → record ∈ r.world.log := by
      intro record hrec hnot
      refine (List.mem_append.mp hrec).resolve_right fun hrec ↦ ?_
      exact hnot job (hrecords record hrec).2
    rcases hentries entry hentry with hentry | ⟨rfl, -⟩
    · have hfolded := hc.folded entry hentry
      refine ⟨fun x h ↦ hfolded.fired x (hcreated _ h fun other h ↦ by cases h),
        fun x h ↦ hfolded.missed x (hcreated _ h fun other h ↦ by cases h), fun status h ↦ ?_⟩
      exact List.mem_append_left _
        (hfolded.status status (hcreated _ h fun other h ↦ by cases h))
    · refine ⟨fun x h ↦ ?_, fun x h ↦ ?_, fun status h ↦ ?_⟩
      · exact absurd rfl (hother _ (hcreated _ h fun other h ↦ by cases h))
      · exact absurd rfl (hother _ (hcreated _ h fun other h ↦ by cases h))
      · exact absurd rfl (hother _ (hcreated _ h fun other h ↦ by cases h))

end Create

/-! ## A whole run -/

section Whole

variable {cron : CronSearch} {parses : String → Bool} {jitter : String → String → ℤ → ℤ}
  {ids : IdSource} {made : List CronJob} {r : Run}

/-- **One step keeps what holds.** -/
theorem Consistent.step (hc : Consistent cron ids made r) (op : Op) :
    ∃ made', Consistent cron ids made' (r.step cron parses jitter ids op) := by
  cases op with
  | create createdAt input =>
    rcases @create_cases ids parses jitter createdAt input r.world with
      ⟨drawn, hle, heq⟩ | ⟨job, hid, heq⟩
    · refine ⟨made, ?_⟩
      rw [Run.step, World.step, heq, List.append_nil]
      exact { hc with
        drawn := fun job hjob ↦ by
          obtain ⟨k, hlt, hk⟩ := hc.drawn job hjob
          exact ⟨k, hlt.trans_le hle, hk⟩ }
    · refine ⟨made ++ [job], ?_⟩
      rw [Run.step, World.step, heq, List.append_nil]
      exact hc.withJob hid
  | delete id => exact ⟨made, hc.touch fun _ ↦ sound_delete⟩
  | due now busy managed => exact ⟨made, hc.touch fun _ ↦ sound_evaluate⟩
  | resume now => exact ⟨made, hc.touch fun _ ↦ sound_resume⟩
  | restart =>
    refine ⟨made, ?_⟩
    rw [Run.step, World.step, List.append_nil]
    exact hc.restart

theorem consistent_run (ops : List Op) :
    ∃ made, Consistent cron ids made (run cron parses jitter ids ops) := by
  have hrun : ∀ (ops : List Op) (r : Run), (∃ made, Consistent cron ids made r) →
      ∃ made, Consistent cron ids made (ops.foldl (Run.step cron parses jitter ids) r) := by
    intro ops
    induction ops with
    | nil => exact fun r h ↦ h
    | cons op ops ih =>
      rintro r ⟨made, hc⟩
      exact ih _ (hc.step op)
  refine hrun ops _ ⟨[], ?_⟩
  constructor
  all_goals first
    | exact List.nodup_nil
    | exact fun x hx ↦ absurd hx List.not_mem_nil

/-- Two reports of a run, in their order. -/
theorem Consistent.reports_of_sublist (hc : Consistent cron ids made r) {a b : DueResult}
    (hsub : [a, b].Sublist r.reports) (hid : a.job.id = b.job.id) :
    a.scheduledInstant < b.scheduledInstant ∧ a.job.kind ≠ .oneShot := by
  have hmem : a ∈ r.reports := hsub.subset List.mem_cons_self
  have htold := hc.told a.job (hc.reportMade a hmem)
  have hsub' : [a.scheduledInstant, b.scheduledInstant].Sublist
      (r.history a.job.id).reported := by
    have hfilter := (hsub.filter fun d ↦ d.job.id = a.job.id).map DueResult.scheduledInstant
    rwa [List.filter_eq_self.mpr] at hfilter
    intro d hd
    rcases List.mem_cons.mp hd with rfl | hd
    · exact decide_eq_true rfl
    · rw [List.mem_singleton.mp hd]
      exact decide_eq_true hid.symm
  refine ⟨List.pairwise_iff_forall_sublist.mp htold.increasing hsub', fun hkind ↦ ?_⟩
  exact absurd (hsub'.length_le.trans (htold.once hkind)) (Nat.not_succ_le_self 1)

/-- **What is reported over the lifetime of a scheduler.** Its process may come up again at any
point. No instant of a job is reported twice. Those of one job are reported in their order, and
those of a recurring one are instants of its expression. A one-shot is reported once at most. And
what is recorded as missed, an instant or a one-shot, is not reported, before or after. -/
theorem reports_run (ops : List Op) :
    ((run cron parses jitter ids ops).reports.map fun d ↦ (d.job.id, d.scheduledInstant)).Nodup ∧
      (∀ id, (((run cron parses jitter ids ops).reports.filter fun d ↦ d.job.id = id).map
        DueResult.scheduledInstant).Pairwise (· < ·)) ∧
      (∀ d ∈ (run cron parses jitter ids ops).reports, d.job.kind = .recurring →
        OnTime cron d.job d.scheduledInstant) ∧
      (((run cron parses jitter ids ops).reports.filter fun d ↦ d.job.kind = .oneShot).map
        fun d ↦ d.job.id).Nodup ∧
      ∀ d ∈ (run cron parses jitter ids ops).reports,
        .jobMissedInstant d.job.id d.scheduledInstant ∉ (run cron parses jitter ids ops).world.log ∧
        (d.job.kind = .oneShot →
          .jobStatus d.job.id .missed ∉ (run cron parses jitter ids ops).world.log) := by
  obtain ⟨made, hc⟩ := @consistent_run cron parses jitter ids ops
  generalize run cron parses jitter ids ops = r at hc ⊢
  have hreported : ∀ d ∈ r.reports, d.scheduledInstant ∈ (r.history d.job.id).reported :=
    fun d hd ↦ List.mem_map_of_mem (List.mem_filter.mpr ⟨hd, decide_eq_true rfl⟩)
  have hrecords : ∀ record ∈ r.world.log, record ∈ (r.history record.id).records :=
    fun record hrec ↦ List.mem_filter.mpr ⟨hrec, decide_eq_true rfl⟩
  refine ⟨?_, fun id ↦ ?_, fun d hd hkind ↦ ?_, ?_, fun d hd ↦ ⟨fun hrec ↦ ?_, fun hkind hrec ↦ ?_⟩⟩
  · refine List.pairwise_map.mpr (List.pairwise_iff_forall_sublist.mpr fun hsub heq ↦ ?_)
    obtain ⟨hid, hinstant⟩ := Prod.ext_iff.mp heq
    exact (hc.reports_of_sublist hsub hid).1.ne hinstant
  · refine List.pairwise_map.mpr (List.pairwise_iff_forall_sublist.mpr fun {a b} hsub ↦ ?_)
    have hof : ∀ d ∈ [a, b], d.job.id = id := fun d hd ↦
      of_decide_eq_true (List.mem_filter.mp (hsub.subset hd)).2
    refine (hc.reports_of_sublist (hsub.trans List.filter_sublist) ?_).1
    rw [hof a List.mem_cons_self, hof b (List.mem_cons_of_mem _ List.mem_cons_self)]
  · exact (hc.told d.job (hc.reportMade d hd)).onTime hkind _ (hreported d hd)
  · refine List.pairwise_map.mpr (List.pairwise_iff_forall_sublist.mpr fun {a b} hsub hid ↦ ?_)
    refine (hc.reports_of_sublist (hsub.trans List.filter_sublist) hid).2 ?_
    exact of_decide_eq_true (List.mem_filter.mp (hsub.subset List.mem_cons_self)).2
  · exact (hc.told d.job (hc.reportMade d hd)).apart _ (hreported d hd) (hrecords _ hrec)
  · have hnil := (hc.told d.job (hc.reportMade d hd)).lapsed hkind (hrecords _ hrec)
    have hmem := hreported d hd
    rw [hnil] at hmem
    cases hmem

end Whole

end QwenHarness.Scheduler
