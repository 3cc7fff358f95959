import QwenHarness.Tasks.Progress
import QwenHarness.Teams.Teammate

/-!
# What the parts of a step do

A step takes a task when it begins, and lets it go when it ends. Between the two the graph belongs to
others. All of it is said in terms of tenures: the beginning of a step begins at most one, its end
and a reclaim only end some.
-/

namespace QwenHarness.Teams

open Tasks

variable {ι : Type} {db db' : TaskDb}

/-! ## Letting go -/

/-- Tenures may end, and that is all. -/
structure Drops (db db' : TaskDb) : Prop where
  length : db.events.length ≤ db'.events.length
  lastClaim : lastClaim db' = lastClaim db
  tenure : ∀ id τ, Tasks.tenure db' id = some τ → Tasks.tenure db id = some τ

theorem Drops.refl (db : TaskDb) : Drops db db := ⟨le_rfl, rfl, fun _ _ h ↦ h⟩

theorem Drops.trans {db'' : TaskDb} (h : Drops db db') (h' : Drops db' db'') : Drops db db'' :=
  ⟨h.length.trans h'.length, h'.lastClaim.trans h.lastClaim,
    fun id τ hτ ↦ h.tenure id τ (h'.tenure id τ hτ)⟩

theorem length_emits {now : ℕ → ℤ} {events : List TaskEventInput}
    (h : TaskDb.Emits now db events db') : db'.events.length = db.events.length + events.length := by
  induction h with
  | nil => rfl
  | cons h _ ih =>
    obtain ⟨p, -, -, rfl⟩ := TaskDb.emit_eq_ok_iff.mp h
    rw [ih, List.length_append, List.length_singleton, List.length_cons]
    omega

theorem tenure_of_update_none {id a : ℤ} {τ : Tenure}
    (h : tenure db' = Function.update (tenure db) id none) (hτ : tenure db' a = some τ) :
    a ≠ id ∧ tenure db a = some τ := by
  rw [h] at hτ
  by_cases ha : a = id
  · rw [ha, Function.update_self] at hτ
    cases hτ
  · rw [Function.update_of_ne ha] at hτ
    exact ⟨ha, hτ⟩

theorem drops_release {now : ℕ → ℤ} {actor : Actor} {id : ℤ} {r : Task × List TaskEventRecord}
    (h : TaskGraph.release now actor db id = (.ok r, db')) : Drops db db' := by
  refine ⟨?_, TaskGraph.lastClaim_release h, fun a τ hτ ↦ ?_⟩
  · have hlength := length_emits (TaskGraph.release_ok h).2
    omega
  · exact (tenure_of_update_none (TaskGraph.tenure_release h).2 hτ).2

theorem drops_complete {now : ℕ → ℤ} {actor : Actor} {id : ℤ}
    {r : CompleteResult × List TaskEventRecord}
    (h : TaskGraph.complete now actor db id = (.ok r, db')) : Drops db db' := by
  refine ⟨?_, TaskGraph.lastClaim_complete h, fun a τ hτ ↦ ?_⟩
  · obtain ⟨-, db₁, hemits, hflips⟩ := TaskGraph.complete_ok h
    have hlength := length_emits hemits
    have hlength' := length_emits hflips
    omega
  · exact (tenure_of_update_none (TaskGraph.tenure_complete h).2 hτ).2

variable {now : ℕ → ℤ}

/-- To reclaim tasks ends tenures. -/
theorem drops_releaseAll (now : ℕ → ℤ) (actor : Actor) (tasks : List Task) (db : TaskDb) :
    Drops db (releaseAll now actor tasks db) ∧
      (CompletedOnce db → CompletedOnce (releaseAll now actor tasks db)) := by
  induction tasks generalizing db with
  | nil => exact ⟨.refl db, id⟩
  | cons task tasks ih =>
    rw [releaseAll]
    cases h : TaskGraph.release now actor db task.id with
    | mk result db' =>
      cases result with
      | error e =>
        cases TaskGraph.release_error h
        exact ⟨.refl db, id⟩
      | ok r =>
        obtain ⟨hdrops, honce⟩ := ih db'
        exact ⟨(drops_release h).trans hdrops,
          fun hdb ↦ honce ((TaskGraph.quiet_release h).completedOnce hdb)⟩

variable {ctx : TeammateContext}

/-- How a step ends: it changes its task if it can, and then nobody holds it any more. -/
structure Ends (db : TaskDb) (id : ℤ) (can : Prop) (r : Bool × TaskDb) : Prop where
  drops : Drops db r.2
  can_iff : r.1 = true ↔ can
  gone : r.1 = true → tenure r.2 id = none
  same : r.1 = false → r.2 = db
  once : CompletedOnce db → CompletedOnce r.2

theorem ends_changed {α : Type} {id : ℤ} {can : Prop} {result : Except TaskError α × TaskDb}
    (hcan : (∃ a db', result = (.ok a, db')) ↔ can)
    (herror : ∀ e db', result = (.error e, db') → db' = db)
    (hok : ∀ a db', result = (.ok a, db') → Drops db db' ∧
      tenure db' = Function.update (tenure db) id none ∧ (CompletedOnce db → CompletedOnce db')) :
    Ends db id can (changed result) := by
  obtain ⟨e | a, db'⟩ := result
  · obtain rfl := herror e db' rfl
    refine ⟨.refl _, iff_of_false Bool.false_ne_true ?_, ?_, fun _ ↦ rfl, fun h ↦ h⟩
    · rw [← hcan]
      rintro ⟨a, db', h⟩
      cases h
    · exact fun h ↦ (Bool.false_ne_true h).elim
  · obtain ⟨hdrops, htenure, honce⟩ := hok a db' rfl
    refine ⟨hdrops, iff_of_true rfl (hcan.mp ⟨a, db', rfl⟩), fun _ ↦ ?_, ?_, honce⟩
    · exact (congrFun htenure id).trans (Function.update_self ..)
    · exact fun h ↦ (Bool.false_ne_true h.symm).elim

/-- **The end of a step.** Whether it changes its task depends on the task, and not on who holds
it. -/
theorem ends_endStep (now : ℕ → ℤ) (ctx : TeammateContext) (db : TaskDb) (outcome : Outcome)
    (id : ℤ) :
    Ends db id
      (match outcome with
        | .ok => (tenure db id).map Tenure.status = some .inProgress
        | .notOk => tenure db id ≠ none
        | .threw => False)
      (endStep now ctx outcome id db) := by
  cases outcome with
  | ok =>
    refine ends_changed (TaskGraph.complete_succeeds_iff now ctx.actor)
      (fun _ _ ↦ TaskDb.transact_eq_error) fun r db' h ↦ ⟨drops_complete h, ?_, fun hdb ↦ ?_⟩
    · exact (TaskGraph.tenure_complete h).2
    · exact TaskGraph.completedOnce_complete hdb h
  | notOk =>
    refine ends_changed (TaskGraph.release_succeeds_iff now ctx.actor)
      (fun _ _ ↦ TaskGraph.release_error) fun r db' h ↦ ⟨drops_release h, ?_, ?_⟩
    · exact (TaskGraph.tenure_release h).2
    · exact (TaskGraph.quiet_release h).completedOnce
  | threw =>
    exact ⟨.refl db, iff_of_false Bool.false_ne_true fun h ↦ h, fun h ↦ (Bool.false_ne_true h).elim,
      fun _ ↦ rfl, fun h ↦ h⟩

/-! ## Taking a task -/

/-- The step is not told to stop before it looks for a task. -/
def Teammate.goesOn (mate : Teammate) (aborted : Bool) : Bool :=
  decide (mate.phase ≠ .stopped) &&
    !((mate.handleMessages mate.inbox.entries).shutdownRequested || aborted)

/-- The member of the step holds its task now, and did not before. -/
structure Takes (db : TaskDb) (id : ℤ) (status : TaskStatus) (member : String) (db' : TaskDb) :
    Prop where
  length : db.events.length < db'.events.length
  lastClaim : lastClaim db' = Function.update (lastClaim db) id (some (db.events.length + 1))
  tenure : tenure db' = Function.update (tenure db) id
    (some ⟨status, some member, some (db.events.length + 1)⟩)
  once : CompletedOnce db → CompletedOnce db'

theorem mem_claimable {task : Task} (h : task ∈ claimable db) :
    ∃ t, db.getTask task.id = some t ∧ t.owner = none ∧ isClaimable t.status = true := by
  rw [claimable, List.mem_filter, decide_eq_true_eq] at h
  obtain ⟨hmem, howner, hstatus⟩ := h
  obtain ⟨t, ht, rfl⟩ := List.mem_map.mp hmem
  rw [TaskDb.listTasks, List.mem_insertionSort, List.mem_filter] at ht
  refine ⟨t, Keyed.find?_eq_some_iff.mpr ⟨ht.1, rfl⟩, howner, ?_⟩
  rw [isClaimable, decide_eq_true_eq, List.mem_cons, List.mem_singleton]
  exact hstatus

theorem takes_claim {id : ℤ} {owner : String} {actor : Actor} {task : Task}
    {records : List TaskEventRecord}
    (h : TaskGraph.claim now actor db id owner = (.ok (.won task, records), db')) :
    Takes db id .claimed owner db' := by
  refine ⟨?_, TaskGraph.lastClaim_claim h, (TaskGraph.tenure_claim h).2,
    (TaskGraph.quiet_claim h).completedOnce⟩
  rcases TaskGraph.claim_ok h with ⟨⟨_, hlost⟩, -⟩ | ⟨-, -, -, hemits⟩
  · cases hlost
  · have hlength := length_emits hemits
    rw [List.length_singleton] at hlength
    omega

theorem Takes.start {id : ℤ} {owner : String} {actor : Actor} {db'' : TaskDb}
    {r : Task × List TaskEventRecord} (htakes : Takes db id .claimed owner db')
    (h : TaskGraph.start now actor db' id = (.ok r, db'')) : Takes db id .inProgress owner db'' := by
  refine ⟨?_, (TaskGraph.lastClaim_start h).trans htakes.lastClaim, ?_,
    fun hdb ↦ (TaskGraph.quiet_start h).completedOnce (htakes.once hdb)⟩
  · have hlength := length_emits (TaskGraph.start_ok h).2.2
    have hlt := htakes.length
    omega
  · obtain ⟨o, ho, htenure⟩ := TaskGraph.tenure_start h
    rw [htakes.tenure, Function.update_self] at ho
    rw [htenure, htakes.tenure, htakes.lastClaim, Function.update_self, Function.update_idem]
    obtain ⟨-, rfl, -⟩ := Tenure.mk.inj (Option.some.inj ho)
    rfl

/-- A step that goes on looks for a task. -/
theorem beginStep_eq (now : ℕ → ℤ) (ctx : TeammateContext) (db : TaskDb) (aborted : Bool) (mate : Teammate) :
    ∃ mate', beginStep now ctx aborted mate db =
      if mate.goesOn aborted = true then claimFirst now ctx mate' (claimable db) db
      else (.stopped, mate', db) := by
  rw [beginStep, Teammate.goesOn]
  by_cases hstopped : mate.phase = .stopped
  · refine ⟨mate, ?_⟩
    rw [if_pos hstopped, if_neg]
    rw [decide_eq_false (not_not.mpr hstopped), Bool.false_and]
    exact Bool.false_ne_true
  · rw [if_neg hstopped, decide_eq_true hstopped, Bool.true_and]
    cases hasked : (mate.handleMessages mate.inbox.entries).shutdownRequested || aborted with
    | true => exact ⟨_, if_pos hasked⟩
    | false => exact ⟨_, if_neg (ne_true_of_eq_false hasked)⟩

/-- **The beginning of a step.** It leaves the graph as it is, or it takes the first free task: it
works on it if its blockers are done with, and else it fails with the task in hand. -/
theorem beginStep_cases (now : ℕ → ℤ) (ctx : TeammateContext) (db : TaskDb) (aborted : Bool)
    (mate : Teammate) (i : ι) :
    ((beginStep now ctx aborted mate db).2.2 = db ∧
        (beginStep now ctx aborted mate db).1.waiting i = [] ∧
        ¬ (mate.goesOn aborted = true ∧ isOwnerId ctx.memberId = true ∧ claimable db ≠ [])) ∨
      mate.goesOn aborted = true ∧ isOwnerId ctx.memberId = true ∧
        ∃ task, (claimable db).head? = some task ∧
          ((allBlockersCompleted db.listDeps task.id db.isDone = true ∧
              (beginStep now ctx aborted mate db).1.waiting i =
                [⟨i, task.id, db.events.length + 1⟩] ∧
              Takes db task.id .inProgress ctx.memberId
                (beginStep now ctx aborted mate db).2.2) ∨
            allBlockersCompleted db.listDeps task.id db.isDone = false ∧
              (beginStep now ctx aborted mate db).1.waiting i = [] ∧
              Takes db task.id .claimed ctx.memberId
                (beginStep now ctx aborted mate db).2.2) := by
  obtain ⟨mate', heq⟩ := beginStep_eq now ctx db aborted mate
  rw [heq]
  by_cases hgo : mate.goesOn aborted = true
  · rw [if_pos hgo]
    cases htasks : claimable db with
    | nil => exact .inl ⟨rfl, rfl, fun h ↦ h.2.2 rfl⟩
    | cons task tasks =>
      obtain ⟨t, ht, hfree, hclaim⟩ :=
        mem_claimable (by rw [htasks]; exact List.mem_cons_self)
      rw [claimFirst]
      by_cases howner : isOwnerId ctx.memberId = true
      · obtain ⟨task', records, db₁, hwon⟩ :=
          TaskGraph.claim_of_free now ctx.actor howner ht hfree hclaim
        have htakes := takes_claim hwon
        have hready : allBlockersCompleted db₁.listDeps task.id db₁.isDone =
            allBlockersCompleted db.listDeps task.id db.isDone := by
          rw [Bool.eq_iff_iff, TaskDb.allBlockersCompleted_iff_not_waiting,
            TaskDb.allBlockersCompleted_iff_not_waiting, TaskGraph.waiting_claim hwon]
        rw [hwon]
        refine .inr ⟨hgo, howner, task, rfl, ?_⟩
        cases hstart : TaskGraph.start now ctx.actor db₁ task.id with
        | mk result db₂ =>
          cases result with
          | ok r =>
            have hpassed := (TaskGraph.start_ok hstart).2.1
            rw [hready] at hpassed
            simp only [hstart]
            exact .inl ⟨hpassed, rfl, htakes.start hstart⟩
          | error e =>
            obtain rfl := TaskGraph.start_error hstart
            simp only [hstart]
            refine .inr ⟨?_, rfl, htakes⟩
            rw [← hready, ← Bool.not_eq_true]
            intro hpassed
            obtain ⟨-, hstate, -⟩ := tenure_eq_some.mp
              ((congrFun htakes.tenure task.id).trans (Function.update_self ..))
            obtain ⟨t', ht', hs, -⟩ := TaskDb.state_eq_some.mp hstate
            obtain ⟨r, db₃, hok⟩ := TaskGraph.start_of_ready now ctx.actor ht' hs hpassed
            rw [hok] at hstart
            cases (Prod.mk.inj hstart).1
      · have hthrows : TaskGraph.claim now ctx.actor db task.id ctx.memberId =
            (.error .invalidInput, db) := if_pos (Bool.not_eq_true _ ▸ howner)
        rw [hthrows]
        exact .inl ⟨rfl, rfl, fun h ↦ howner h.2.1⟩
  · rw [if_neg hgo]
    exact .inl ⟨rfl, rfl, fun h ↦ hgo h.1⟩

end QwenHarness.Teams
