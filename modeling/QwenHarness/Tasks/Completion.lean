import QwenHarness.Tasks.Runs

/-!
# What is done with stays so

No call takes a task back that is completed or deleted, and only `complete` completes one, which has
to be in progress. So no task is completed twice, in any run.
-/

namespace QwenHarness.Tasks

open TaskDb

/-! ## Completing once -/

/-- The entry says that a task was completed. -/
def completes (id : ℤ) (record : TaskEventRecord) : Bool :=
  decide (record.taskId = id) &&
    match readChange record.type record.payload with
    | some (.statusChanged .completed) => true
    | _ => false

/-- How often a task was completed. -/
def completions (db : TaskDb) (id : ℤ) : ℕ := db.events.countP (completes id)

/-- The event completes the task. -/
def TaskEventInput.completes (id : ℤ) (event : TaskEventInput) : Bool :=
  decide (event.taskId = id) &&
    match event.change with
    | .statusChanged .completed => true
    | _ => false

theorem completes_logged (id : ℤ) (seq : ℕ) (ts : ℤ) (event : TaskEventInput) :
    completes id (logged seq ts event) = event.completes id := by
  obtain ⟨taskId, actor, change⟩ := event
  rw [completes, logged, readChange_payload, TaskEventInput.completes]
  cases change with
  | statusChanged status => cases status <;> rfl
  | _ => rfl

variable {now : ℕ → ℤ} {db db' : TaskDb}

theorem completions_emits {events : List TaskEventInput} (h : Emits now db events db') (id : ℤ) :
    completions db' id = completions db id + events.countP (TaskEventInput.completes id) := by
  induction h with
  | nil => rfl
  | cons h _ ih =>
    obtain ⟨p, -, -, rfl⟩ := emit_eq_ok_iff.mp h
    rw [ih, completions, completions, List.countP_append, List.countP_singleton, completes_logged,
      List.countP_cons]
    omega

/-- A task is completed at most once, and then it is done with. -/
def CompletedOnce (db : TaskDb) : Prop :=
  ∀ id, completions db id = 0 ∨ completions db id = 1 ∧ db.board.Done id

theorem completedOnce_empty : CompletedOnce TaskDb.empty := fun _ ↦ .inl rfl

/-- Nothing that was done with comes back, and nothing is completed. -/
structure Quiet (db db' : TaskDb) : Prop where
  done : ∀ a, db.board.Done a → db'.board.Done a
  completions : ∀ a, completions db' a = completions db a

theorem Quiet.completedOnce (h : Quiet db db') (hdb : CompletedOnce db) : CompletedOnce db' :=
  fun id ↦ (hdb id).imp (h.completions id).trans
    fun ⟨hc, hd⟩ ↦ ⟨(h.completions id).trans hc, h.done id hd⟩

theorem Quiet.refl (db : TaskDb) : Quiet db db := ⟨fun _ h ↦ h, fun _ ↦ rfl⟩

theorem Quiet.trans {db'' : TaskDb} (h : Quiet db db') (h' : Quiet db' db'') : Quiet db db'' :=
  ⟨fun a ha ↦ h'.done a (h.done a ha), fun a ↦ (h'.completions a).trans (h.completions a)⟩

/-- Events that complete nothing and touch nothing that is done with. -/
theorem Quiet.of_emits {events : List TaskEventInput} (h : Emits now db events db')
    (hevents : ∀ id, events.countP (TaskEventInput.completes id) = 0)
    (hstate : ∀ a, db.board.Done a → db'.board.state a = db.board.state a) : Quiet db db' where
  done a ha := by
    obtain ⟨s, o, hs, hsat⟩ := ha
    exact ⟨s, o, (hstate a ⟨s, o, hs, hsat⟩).trans hs, hsat⟩
  completions a := by rw [completions_emits h, hevents, Nat.add_zero]

theorem not_done_of_state {B : Board ℤ String} {id : ℤ} {s : TaskStatus} {o : Option String}
    (h : B.state id = some (s, o)) (hs : isSatisfied s = false) : ¬ B.Done id := by
  rw [Board.done_of_state h, hs]
  exact Bool.false_ne_true

namespace TaskGraph

variable {actor : Actor} {id : ℤ} {task : Task} {records : List TaskEventRecord}

/-- One event about a task that is not done with. -/
theorem quiet_single {event : TaskEventInput} (hemits : Emits now db [event] db')
    (hevent : ∀ a, event.completes a = false) (hopen : ¬ db.board.Done id)
    (hother : ∀ a, a ≠ id → (db.board.apply event).state a = db.board.state a) :
    Quiet db db' := by
  refine .of_emits hemits (fun a ↦ ?_) fun a ha ↦ ?_
  · rw [List.countP_singleton, if_neg (Bool.not_eq_true _ ▸ hevent a)]
  · rw [hemits.board]
    refine hother a ?_
    rintro rfl
    exact hopen ha

theorem quiet_create {input : CreateTaskInput}
    (h : create now actor db input = (.ok (task, records), db')) : Quiet db db' := by
  obtain ⟨parsed, -, -, -, -, hemits⟩ := create_ok h
  have hfresh : db.board.state db.nextId = none := by
    rcases hemits with - | ⟨hemit, -⟩
    have hnone := state_of_emit_created hemit
    exact hnone
  have hquiet : Quiet { db with nextId := db.nextId + 1 } db' := by
    refine quiet_single hemits (fun a ↦ Bool.and_false _) ?_
      fun a ha ↦ Function.update_of_ne ha _ _
    rintro ⟨s, o, hs, -⟩
    cases hfresh.symm.trans hs
  exact ⟨hquiet.done, hquiet.completions⟩

theorem quiet_claim {owner : String} {result : ClaimResult}
    (h : claim now actor db id owner = (.ok (result, records), db')) : Quiet db db' := by
  rcases claim_ok h with ⟨-, rfl, -⟩ | ⟨-, -, ⟨t, ht, -, hclaim⟩, hemits⟩
  · exact .refl db'
  · refine quiet_single hemits (fun a ↦ Bool.and_false _)
      (not_done_of_state (state_of_getTask ht) ?_) fun a ha ↦ Function.update_of_ne ha _ _
    have hcases : t.status = .pending ∨ t.status = .released := by simpa [isClaimable] using hclaim
    rcases hcases with hs | hs <;> rw [hs] <;> rfl

theorem quiet_start (h : start now actor db id = (.ok (task, records), db')) : Quiet db db' := by
  obtain ⟨⟨t, ht, hclaimed⟩, -, hemits⟩ := start_ok h
  refine quiet_single hemits (fun a ↦ Bool.and_false _)
    (not_done_of_state (state_of_getTask ht) ?_) fun a ha ↦ Function.update_of_ne ha _ _
  rw [hclaimed]
  rfl

theorem quiet_release (h : release now actor db id = (.ok (task, records), db')) :
    Quiet db db' := by
  obtain ⟨⟨t, ht, howned⟩, hemits⟩ := release_ok h
  refine quiet_single hemits (fun a ↦ Bool.and_false _)
    (not_done_of_state (state_of_getTask ht) ?_) fun a ha ↦ Function.update_of_ne ha _ _
  have hcases : t.status = .claimed ∨ t.status = .inProgress := by simpa [isOwned] using howned
  rcases hcases with hs | hs <;> rw [hs] <;> rfl

theorem quiet_setMetadata {metadata : List (String × Codec.Value)}
    (h : setMetadata now actor db id metadata = (.ok (task, records), db')) : Quiet db db' := by
  have hemits := (setMetadata_ok h).2
  refine .of_emits hemits (fun a ↦ ?_) fun a _ ↦ by rw [hemits.board]; rfl
  have hevent : TaskEventInput.completes a ⟨id, actor, .metadataUpdated metadata⟩ = false :=
    Bool.and_false _
  rw [List.countP_singleton, hevent]
  rfl

theorem quiet_addDependency {blockerId blockedId : ℤ}
    (h : addDependency now actor db blockerId blockedId = (.ok (task, records), db')) :
    Quiet db db' := by
  obtain ⟨blocker, blocked, -, ⟨hblocked, -⟩, -, hemits⟩ := addDependency_ok h
  have hlink : ∀ a, TaskEventInput.completes a
      ⟨blockedId, actor, .dependencyAdded blockerId blockedId⟩ = false :=
    fun a ↦ Bool.and_false _
  have hblock : ∀ a, TaskEventInput.completes a
      ⟨blockedId, actor, .statusChanged .blocked⟩ = false := fun a ↦ Bool.and_false _
  have hboard := hemits.board
  split_ifs at hemits hboard with hflip
  · refine .of_emits hemits (fun a ↦ ?_) fun a ha ↦ ?_
    · rw [List.countP_cons, List.countP_singleton, hlink, hblock]
      rfl
    · rw [hboard]
      refine Function.update_of_ne ?_ _ _
      rintro rfl
      refine not_done_of_state (state_of_getTask hblocked) ?_ ha
      rcases hflip.1 with hs | hs <;> rw [hs] <;> rfl
  · refine .of_emits hemits (fun a ↦ ?_) fun a _ ↦ by rw [hboard]; rfl
    rw [List.countP_singleton, hlink]
    rfl

/-- To flip blocked tasks completes nothing. -/
theorem quiet_flips {ids : List ℤ} (hemits : Emits now db (flips actor ids) db')
    (hblocked : ∀ a ∈ ids, db.isBlocked a = true) : Quiet db db' := by
  have hevent : ∀ a b, TaskEventInput.completes a ⟨b, actor, .statusChanged .pending⟩ = false :=
    fun a b ↦ Bool.and_false _
  refine .of_emits hemits (fun a ↦ ?_) fun a ha ↦ ?_
  · rw [flips, List.countP_map, List.countP_eq_zero]
    intro b _ hb
    exact Bool.false_ne_true ((hevent a b).symm.trans hb)
  · rw [hemits.board, (foldl_flips actor ids db.board).2 a]
    refine if_neg fun hmem ↦ ?_
    obtain ⟨o, ho⟩ := isBlocked_iff.mp (hblocked a hmem)
    exact not_done_of_state ho rfl ha

theorem quiet_unblock {db₁ : TaskDb}
    (hflips : Emits now db₁
      (flips actor (newlyUnblocked db₁.listDeps id db₁.isBlocked db₁.isDone)) db') :
    Quiet db₁ db' :=
  quiet_flips hflips fun _ ha ↦ (mem_newlyUnblocked.mp ha).2.1

theorem quiet_delete {result : CompleteResult}
    (h : delete now actor db id = (.ok (result, records), db')) : Quiet db db' := by
  obtain ⟨-, db₁, hemits, hflips⟩ := delete_ok h
  refine .trans ⟨fun a ha ↦ ?_, fun a ↦ ?_⟩ (quiet_unblock hflips)
  · by_cases haid : a = id
    · subst haid
      obtain ⟨s, o, hs, -⟩ := ha
      refine ⟨.deleted, none, ?_, rfl⟩
      rw [hemits.board]
      exact (Function.update_self ..).trans (congrArg (Option.map _) hs)
    · rw [Board.Done, hemits.board]
      have hsame : (db.board.apply ⟨id, actor, .deleted⟩).state a = db.board.state a :=
        Function.update_of_ne haid _ _
      rw [List.foldl_cons, List.foldl_nil, hsame]
      exact ha
  · have hevent : TaskEventInput.completes a ⟨id, actor, .deleted⟩ = false := Bool.and_false _
    rw [completions_emits hemits, List.countP_singleton, hevent]
    rfl

/-- **To complete a task** counts once, and the task was not done with before. -/
theorem completedOnce_complete {result : CompleteResult} (hdb : CompletedOnce db)
    (h : complete now actor db id = (.ok (result, records), db')) : CompletedOnce db' := by
  obtain ⟨⟨t, ht, hs⟩, db₁, hemits, hflips⟩ := complete_ok h
  refine (quiet_unblock hflips).completedOnce fun a ↦ ?_
  have hstate := state_of_getTask ht
  rw [hs] at hstate
  have hcount := completions_emits hemits a
  rw [List.countP_singleton, TaskEventInput.completes, Bool.and_true] at hcount
  by_cases ha : id = a
  · subst ha
    rw [if_pos (decide_eq_true rfl)] at hcount
    right
    refine ⟨?_, .completed, t.owner, ?_, rfl⟩
    · rcases hdb id with hzero | ⟨-, hdone⟩
      · rw [hcount, hzero]
      · exact absurd hdone (not_done_of_state hstate rfl)
    · rw [hemits.board]
      exact (Function.update_self ..).trans (congrArg (Option.map _) hstate)
  · rw [if_neg (by rwa [decide_eq_true_eq]), Nat.add_zero] at hcount
    have hsame : (db.board.apply ⟨id, actor, .statusChanged .completed⟩).state a =
        db.board.state a := Function.update_of_ne (Ne.symm ha) _ _
    rw [hcount, Board.Done, hemits.board, List.foldl_cons, List.foldl_nil, hsame]
    exact hdb a

end TaskGraph

/-- **One call** completes no task a second time. -/
theorem TaskCall.completedOnce_run (call : TaskCall) (hfaithful : db.Faithful)
    (hdb : CompletedOnce db) : CompletedOnce (call.run db).2 := by
  refine call.run_preserves hfaithful hdb ?_ ?_ ?_ ?_ ?_ ?_ ?_ ?_
  · exact fun _ _ _ h ↦ (TaskGraph.quiet_create h).completedOnce hdb
  · exact fun _ _ _ _ h ↦ (TaskGraph.quiet_addDependency h).completedOnce hdb
  · exact fun _ _ _ _ h ↦ (TaskGraph.quiet_claim h).completedOnce hdb
  · exact fun _ _ _ h ↦ (TaskGraph.quiet_start h).completedOnce hdb
  · exact fun _ _ _ h ↦ (TaskGraph.quiet_release h).completedOnce hdb
  · exact fun _ _ _ h ↦ TaskGraph.completedOnce_complete hdb h
  · exact fun _ _ _ h ↦ (TaskGraph.quiet_delete h).completedOnce hdb
  · exact fun _ _ _ _ h ↦ (TaskGraph.quiet_setMetadata h).completedOnce hdb

/-- No run completes a task twice. -/
theorem completedOnce_runAll (calls : List TaskCall) (hfaithful : db.Faithful)
    (hdb : CompletedOnce db) : CompletedOnce (runAll calls db) := by
  induction calls generalizing db with
  | nil => exact hdb
  | cons call calls ih =>
    exact ih (call.faithful_run hfaithful) (call.completedOnce_run hfaithful hdb)

end QwenHarness.Tasks
