import QwenHarness.Scheduler.Poll

/-!
# What is marked and what is reported

A poll marks the instant of a job in memory, writes the record, and reports. Where the record is not
written the mark stays without a report. A job that is made is likewise put among the others before
its record is written.
-/

namespace QwenHarness.Scheduler

open Policy

section Marks

variable {lastFire : String → ℤ → ℤ → ℤ → Option (Option ℤ)} {now : ℤ} {busy : Bool}
  {managed : ManagedPolicy} {written : SchedulerRecord → Bool} {state : JobState} {instant : ℤ}

theorem evaluate_of_firesAt (h : firesAt lastFire now busy state = some instant) :
    evaluate lastFire now busy managed state = fire managed state instant := by
  rw [firesAt, Option.ite_none_right_eq_some] at h
  obtain ⟨⟨hactive, hexpires, hbusy⟩, htarget⟩ := h
  rw [Option.join_eq_some_iff] at htarget
  rw [evaluate, if_neg (not_not.mpr hactive), hexpires, if_neg Bool.false_ne_true, htarget]
  dsimp only
  rw [hbusy, if_neg Bool.false_ne_true]

/-- A job that does not fire is not marked and not reported. -/
theorem evaluate_of_firesAt_eq_none (h : firesAt lastFire now busy state = none) :
    (evaluate lastFire now busy managed state).due = none ∧
      (evaluate lastFire now busy managed state).state.firedInstants = state.firedInstants ∧
      ((evaluate lastFire now busy managed state).state.status = state.status ∨
        (evaluate lastFire now busy managed state).state.status = .expired) := by
  by_cases hactive : state.status = .active
  · cases hexpires : expires now state with
    | true =>
      rw [evaluate, if_neg (not_not.mpr hactive), hexpires, if_pos rfl]
      exact ⟨rfl, rfl, .inr rfl⟩
    | false =>
      rw [evaluate, if_neg (not_not.mpr hactive), hexpires, if_neg Bool.false_ne_true]
      cases htarget : target lastFire now state with
      | none => exact ⟨rfl, rfl, .inl rfl⟩
      | some found =>
        cases found with
        | none => exact ⟨rfl, rfl, .inl rfl⟩
        | some instant =>
          cases busy with
          | true => exact ⟨rfl, rfl, .inl rfl⟩
          | false =>
            rw [firesAt, if_pos ⟨hactive, hexpires, rfl⟩, htarget] at h
            cases h
  · rw [evaluate, if_pos hactive]
    exact ⟨rfl, rfl, .inl rfl⟩

/-! ## One job -/

/-- The job is marked exactly if it is reported, and then with the instant reported. -/
structure Marked (reported : Option DueResult) (state after : JobState) : Prop where
  instant : ∀ t, after.firedInstants = state.firedInstants ++ [t] ↔
    ∃ d ∈ reported, d.scheduledInstant = t
  status : (state.status ≠ .fired ∧ after.status = .fired) ↔
    state.job.kind = .oneShot ∧ reported ≠ none

theorem report_fire : (fire managed state instant).report written =
    if state.job.durable = true → written (firedRecord state.job instant) = true then
      (fire managed state instant).due
    else none := by
  unfold Evaluation.report
  rw [fire, CronJob.persist]
  cases state.job.durable with
  | false => simp
  | true => simp

/-- **One job.** It is marked as it should be unless it fires and its record is lost. -/
theorem marked_iff : Marked ((evaluate lastFire now busy managed state).report written) state
      (evaluate lastFire now busy managed state).state ↔
    ∀ t, firesAt lastFire now busy state = some t → state.job.durable = true →
      written (firedRecord state.job t) = true := by
  cases hfires : firesAt lastFire now busy state with
  | none =>
    obtain ⟨hdue, hinstants, hstatus⟩ :=
      @evaluate_of_firesAt_eq_none lastFire now busy managed state hfires
    have hreport : (evaluate lastFire now busy managed state).report written = none := by
      unfold Evaluation.report
      rw [hdue]
      split
      · rfl
      · exact ite_self none
    refine iff_of_true ⟨fun t ↦ ?_, ?_⟩ fun t ht ↦ absurd ht (by simp)
    · rw [hreport, hinstants]
      simp
    · rw [hreport]
      refine iff_of_false (fun h ↦ ?_) fun h ↦ h.2 rfl
      rcases hstatus with hs | hs
      · exact h.1 (hs ▸ h.2)
      · exact absurd (hs.symm.trans h.2) (by decide)
  | some t =>
    have hactive : state.status = .active := by
      rw [firesAt, Option.ite_none_right_eq_some] at hfires
      exact hfires.1.1
    rw [evaluate_of_firesAt hfires, report_fire]
    by_cases hwritten : state.job.durable = true → written (firedRecord state.job t) = true
    · rw [if_pos hwritten]
      refine iff_of_true ⟨fun t' ↦ ?_, ?_⟩ fun t' ht' ↦ Option.some.inj ht' ▸ hwritten
      · simp [fire, eq_comm]
      · cases hkind : state.job.kind <;> simp [fire, hkind, hactive]
    · rw [if_neg hwritten]
      refine iff_of_false (fun h ↦ ?_) fun h ↦ hwritten (h t rfl)
      obtain ⟨d, hd, -⟩ := (h.instant t).mp rfl
      cases hd

end Marks

/-! ## A poll and a job that is made -/

section Whole

variable (lastFire : String → ℤ → ℤ → ℤ → Option (Option ℤ)) (now : ℤ) (busy : Bool)
  (managed : ManagedPolicy) (written : SchedulerRecord → Bool) (jobs : Keyed JobState.id)

/-- What the poll reports of a job, by its id. -/
def reportOf (id : String) : Option DueResult :=
  (due lastFire now busy managed written jobs.rows).1.find? fun d ↦ d.job.id = id

/-- What becomes of a job, by its id. -/
def stateAfter (id : String) : Option JobState :=
  (due lastFire now busy managed written jobs.rows).2.find? fun state ↦ state.id = id

/-- Every job is marked in the poll exactly as it is reported. -/
def PollMarks : Prop :=
  ∀ state ∈ jobs.rows, ∃ after, stateAfter lastFire now busy managed written jobs state.id =
    some after ∧ Marked (reportOf lastFire now busy managed written jobs state.id) state after

variable {lastFire now busy managed written jobs}

theorem id_evaluate (state : JobState) :
    (evaluate lastFire now busy managed state).state.id = state.id := by
  rw [JobState.id, job_evaluate, JobState.id]

theorem stateAfter_eq {state : JobState} (h : state ∈ jobs.rows) :
    stateAfter lastFire now busy managed written jobs state.id =
      some (evaluate lastFire now busy managed state).state := by
  rw [stateAfter, due]
  dsimp only
  rw [List.find?_map]
  have hfind : jobs.rows.find? ((fun other : JobState ↦ decide (other.id = state.id)) ∘
      fun other ↦ (evaluate lastFire now busy managed other).state) = some state := by
    have hfun : ((fun other : JobState ↦ decide (other.id = state.id)) ∘
        fun other ↦ (evaluate lastFire now busy managed other).state) =
        fun other ↦ decide (other.id = state.id) := by
      funext other
      rw [Function.comp, id_evaluate]
    rw [hfun]
    exact Keyed.find?_eq_some_iff.mpr ⟨h, rfl⟩
  rw [hfind]
  rfl

theorem id_of_report {state : JobState} {d : DueResult}
    (h : (evaluate lastFire now busy managed state).report written = some d) :
    d.job.id = state.id := by
  have hdue : (evaluate lastFire now busy managed state).due = some d := by
    unfold Evaluation.report at h
    split at h
    · exact h
    · exact (Option.ite_none_right_eq_some.mp h).2
  rw [job_of_due hdue, JobState.id]

theorem reportOf_eq {state : JobState} (h : state ∈ jobs.rows) :
    reportOf lastFire now busy managed written jobs state.id =
      (evaluate lastFire now busy managed state).report written := by
  rw [reportOf, due]
  dsimp only
  cases hreport : (evaluate lastFire now busy managed state).report written with
  | none =>
    rw [List.find?_eq_none]
    intro d hd hid
    obtain ⟨other, hother, hd⟩ := List.mem_filterMap.mp hd
    have hsame : other = state :=
      Keyed.eq_of_key_eq hother h ((id_of_report hd).symm.trans (of_decide_eq_true hid))
    rw [hsame, hreport] at hd
    cases hd
  | some d =>
    -- All that the poll reports under this id is the report of this job.
    have hall : ∀ d' ∈ jobs.rows.filterMap fun other ↦
        (evaluate lastFire now busy managed other).report written,
        d'.job.id = state.id → d' = d := by
      intro d' hd' hid
      obtain ⟨other, hother, hd'⟩ := List.mem_filterMap.mp hd'
      have hsame : other = state := Keyed.eq_of_key_eq hother h ((id_of_report hd').symm.trans hid)
      rw [hsame, hreport] at hd'
      exact (Option.some.inj hd').symm
    have hmem : d ∈ jobs.rows.filterMap fun other ↦
        (evaluate lastFire now busy managed other).report written :=
      List.mem_filterMap.mpr ⟨state, h, hreport⟩
    cases hfind : (jobs.rows.filterMap fun other ↦
        (evaluate lastFire now busy managed other).report written).find?
          fun d ↦ d.job.id = state.id with
    | none =>
      exact absurd (decide_eq_true (id_of_report hreport)) (List.find?_eq_none.mp hfind d hmem)
    | some d' =>
      have hid : decide (d'.job.id = state.id) = true :=
        List.find?_some (p := fun d : DueResult ↦ decide (d.job.id = state.id)) hfind
      rw [hall d' (List.mem_of_find?_eq_some hfind) (of_decide_eq_true hid)]

theorem pollMarks_iff : PollMarks lastFire now busy managed written jobs ↔
    ∀ state ∈ jobs.rows, ∀ t, firesAt lastFire now busy state = some t →
      state.job.durable = true → written (firedRecord state.job t) = true := by
  refine forall₂_congr fun state h ↦ ?_
  rw [stateAfter_eq h, reportOf_eq h, ← @marked_iff lastFire now busy managed written state]
  simp

end Whole

section Create

variable (parses : String → Bool) (jitter : String → String → ℤ → ℤ) (createdAt : ℤ) (id : String)
  (input : CreateJobInput) (written : SchedulerRecord → Bool) (jobs : List JobState)

/-- A job that is not made leaves the jobs as they were. -/
def CreateKeeps : Prop :=
  ∀ e, (create parses jitter createdAt id input written jobs).1 = .error e →
    (create parses jitter createdAt id input written jobs).2 = jobs

variable {parses jitter createdAt id input written jobs}

theorem createKeeps_iff (hfresh : ∀ state ∈ jobs, state.id ≠ id) :
    CreateKeeps parses jitter createdAt id input written jobs ↔
      (liveCount input.owner jobs < maxJobsPerOwner → ∀ job,
        newJob parses jitter createdAt id input = .ok job → job.durable = true →
          written (.jobCreated job) = true) := by
  rw [CreateKeeps, create]
  by_cases hlimit : maxJobsPerOwner ≤ liveCount input.owner jobs
  · rw [if_pos hlimit]
    exact iff_of_true (fun _ _ ↦ rfl) fun h ↦ absurd hlimit (not_le.mpr h)
  · rw [if_neg hlimit, imp_iff_right (not_le.mp hlimit)]
    cases hjob : newJob parses jitter createdAt id input with
    | error e => exact iff_of_true (fun _ _ ↦ rfl) fun job h ↦ absurd h (by simp)
    | ok job =>
      dsimp only
      have hset : setJob (.new job) jobs ≠ jobs := by
        have hid : (JobState.new job).id = id := (newJob_spec hjob).1
        rw [setJob_of_fresh fun other hother ↦ hid ▸ hfresh other hother]
        simp
      rw [CronJob.persist]
      cases hdurable : job.durable with
      | false =>
        rw [if_neg Bool.false_ne_true]
        refine iff_of_true (fun e h ↦ absurd h (by simp)) fun job' h hdurable' ↦ ?_
        rw [← Except.ok.inj h, hdurable] at hdurable'
        cases hdurable'
      | true =>
        rw [if_pos rfl]
        dsimp only
        cases hwritten : written (.jobCreated job) with
        | true =>
          rw [if_pos rfl]
          refine iff_of_true (fun e h ↦ absurd h (by simp)) fun job' h _ ↦ ?_
          rw [← Except.ok.inj h]
          exact hwritten
        | false =>
          rw [if_neg Bool.false_ne_true]
          refine iff_of_false (fun h ↦ hset (h _ rfl)) fun h ↦ ?_
          exact absurd (hwritten.symm.trans (h job rfl hdurable)) Bool.false_ne_true

end Create

/-- **What is marked is what is reported**, in a poll of any jobs and for any job that is made,
exactly if the records of the durable jobs that fire are written and that of the job made is. -/
theorem marks_iff (lastFire : String → ℤ → ℤ → ℤ → Option (Option ℤ)) (now : ℤ) (busy : Bool)
    (managed : ManagedPolicy) (jobs : Keyed JobState.id) (parses : String → Bool)
    (jitter : String → String → ℤ → ℤ) (createdAt : ℤ) {id : String} (input : CreateJobInput)
    (written : SchedulerRecord → Bool) (hfresh : ∀ state ∈ jobs.rows, state.id ≠ id) :
    (PollMarks lastFire now busy managed written jobs ↔
      ∀ state ∈ jobs.rows, ∀ t, firesAt lastFire now busy state = some t →
        state.job.durable = true → written (firedRecord state.job t) = true) ∧
    (CreateKeeps parses jitter createdAt id input written jobs.rows ↔
      (liveCount input.owner jobs.rows < maxJobsPerOwner → ∀ job,
        newJob parses jitter createdAt id input = .ok job → job.durable = true →
          written (.jobCreated job) = true)) :=
  ⟨pollMarks_iff, createKeeps_iff hfresh⟩

/-- An operator's authority in one directory. -/
def anyAuthority : Authority := ⟨.ask, .disabled, false, ["/repo"], [], [], 1⟩

/-- A one-shot that fires at the start. -/
def startingJob : CreateJobInput :=
  ⟨"cli", "thr_000001", .oneShot (some 0), "clean", anyAuthority, true⟩

/-- That job, made when there is no other. -/
def oneJob : List JobState :=
  (create (fun _ ↦ true) (fun _ _ _ ↦ 0) 0 "job_000001" startingJob (fun _ ↦ true) []).2

theorem marks_iff_oneJob :
    PollMarks (fun _ _ _ _ ↦ some none) 1 false noManagedRestrictions (fun _ ↦ true)
        ⟨oneJob, by decide⟩ ∧
      CreateKeeps (fun _ ↦ true) (fun _ _ _ ↦ 0) 1 "job_000002" startingJob (fun _ ↦ true)
        oneJob := by
  have hboth := marks_iff (fun _ _ _ _ ↦ some none) 1 false noManagedRestrictions
    ⟨oneJob, by decide⟩ (fun _ ↦ true) (fun _ _ _ ↦ 0) 1 startingJob (fun _ ↦ true)
    (show ∀ state ∈ oneJob, state.id ≠ "job_000002" by decide)
  exact ⟨hboth.1.mpr fun _ _ _ _ _ ↦ rfl, hboth.2.mpr fun _ _ _ _ ↦ rfl⟩

/-- The log takes nothing: the job is marked as fired and not reported, and one that is not made is
among the jobs. -/
theorem not_marks_oneJob :
    ¬ PollMarks (fun _ _ _ _ ↦ some none) 1 false noManagedRestrictions (fun _ ↦ false)
        ⟨oneJob, by decide⟩ ∧
      ¬ CreateKeeps (fun _ ↦ true) (fun _ _ _ ↦ 0) 1 "job_000002" startingJob (fun _ ↦ false)
        oneJob := by
  constructor
  · intro hpoll
    have hwritten := pollMarks_iff.mp hpoll _ (List.mem_singleton_self _) 0 (by decide) (by decide)
    exact absurd hwritten (by decide)
  · intro hcreate
    exact absurd (hcreate .store (by decide)) (by decide)

end QwenHarness.Scheduler
