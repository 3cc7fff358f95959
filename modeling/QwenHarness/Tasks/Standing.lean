import QwenHarness.Tasks.Tenure

/-!
# Where a task stands

A task comes to a status only by an event that puts it there. So it is completed by nothing but a
completion, and in progress by nothing but a start. What a task is about never changes.
-/

namespace QwenHarness.Tasks

open TaskDb

/-- The status an event puts its task in. -/
def TaskChange.status? : TaskChange → Option TaskStatus
  | .created _ _ _ status _ _ => some status
  | .claimed _ => some .claimed
  | .released => some .released
  | .statusChanged status => some status
  | .deleted => some .deleted
  | .metadataUpdated _ => none
  | .dependencyAdded .. => none

/-- The event puts the task in this status. -/
def TaskEventInput.Puts (id : ℤ) (s : TaskStatus) (event : TaskEventInput) : Prop :=
  event.taskId = id ∧ event.change.status? = some s

/-- The task is in this status. -/
def InStatus (db : TaskDb) (id : ℤ) (s : TaskStatus) : Prop :=
  ∃ o, db.board.state id = some (s, o)

variable {now : ℕ → ℤ} {actor : Actor} {db db' : TaskDb} {id : ℤ} {s : TaskStatus}

theorem state_apply_of_not_puts {B : Board ℤ String} {event : TaskEventInput}
    (h : ¬ event.Puts id s) {o : Option String} (hs : (B.apply event).state id = some (s, o)) :
    ∃ o, B.state id = some (s, o) := by
  obtain ⟨taskId, actor, change⟩ := event
  have hadjust : ∀ (s' : TaskStatus) (f : TaskStatus × Option String → TaskStatus × Option String),
      change.status? = some s' → (∀ x, (f x).1 = s') →
        (B.adjust taskId f).state id = some (s, o) → ∃ o, B.state id = some (s, o) := by
    intro s' f hstatus hf hadjusted
    by_cases hid : id = taskId
    · subst hid
      have hself : (B.adjust id f).state id = (B.state id).map f := Function.update_self ..
      obtain ⟨x, -, hx⟩ := Option.map_eq_some_iff.mp (hself.symm.trans hadjusted)
      refine (h ⟨rfl, ?_⟩).elim
      rw [hstatus, ← hf x, hx]
    · have hother : (B.adjust taskId f).state id = B.state id := Function.update_of_ne hid _ _
      exact ⟨o, hother.symm.trans hadjusted⟩
  cases change with
  | created subject description activeForm status metadata blockedBy =>
    by_cases hid : id = taskId
    · subst hid
      have hself : (B.apply ⟨id, actor, .created subject description activeForm status metadata
          blockedBy⟩).state id = some (status, none) := Function.update_self ..
      obtain ⟨rfl, -⟩ := Prod.mk.inj (Option.some.inj (hself.symm.trans hs))
      exact (h ⟨rfl, rfl⟩).elim
    · have hother : (B.apply ⟨taskId, actor, .created subject description activeForm status metadata
          blockedBy⟩).state id = B.state id := Function.update_of_ne hid _ _
      exact ⟨o, hother.symm.trans hs⟩
  | claimed owner => exact hadjust _ _ rfl (fun _ ↦ rfl) hs
  | released => exact hadjust _ _ rfl (fun _ ↦ rfl) hs
  | statusChanged status => exact hadjust _ _ rfl (fun _ ↦ rfl) hs
  | deleted => exact hadjust _ _ rfl (fun _ ↦ rfl) hs
  | metadataUpdated metadata => exact ⟨o, hs⟩
  | dependencyAdded blockerId blockedId => exact ⟨o, hs⟩

/-- **A task comes to a status** only by an event that puts it there. -/
theorem inStatus_of_emits {events : List TaskEventInput} (h : Emits now db events db')
    (hevents : ∀ event ∈ events, ¬ event.Puts id s) (hs : InStatus db' id s) :
    InStatus db id s := by
  induction h with
  | nil => exact hs
  | cons h _ ih =>
    obtain ⟨hevent, hevents⟩ := List.forall_mem_cons.mp hevents
    obtain ⟨o, ho⟩ := ih hevents hs
    rw [board_emit h] at ho
    exact state_apply_of_not_puts hevent ho

theorem inStatus_of_single {event : TaskEventInput} (h : Emits now db [event] db')
    (hevent : ¬ event.Puts id s) (hs : InStatus db' id s) : InStatus db id s :=
  inStatus_of_emits h (fun _ he ↦ List.mem_singleton.mp he ▸ hevent) hs

namespace TaskGraph

variable {task : Task} {records : List TaskEventRecord} {taskId : ℤ}

theorem inStatus_create {input : CreateTaskInput}
    (h : create now actor db input = (.ok (task, records), db')) (hpending : s ≠ .pending)
    (hblocked : s ≠ .blocked) (hs : InStatus db' id s) : InStatus db id s := by
  obtain ⟨parsed, -, -, -, -, hemits⟩ := create_ok h
  -- To take an id changes no task.
  have hbefore : InStatus { db with nextId := db.nextId + 1 } id s → InStatus db id s := fun h ↦ h
  refine hbefore (inStatus_of_single hemits ?_ hs)
  rintro ⟨-, hstatus⟩
  have hfirst : firstStatus db (distinct parsed.blockedBy) = s := Option.some.inj hstatus
  rw [firstStatus] at hfirst
  split_ifs at hfirst
  · exact hpending hfirst.symm
  · exact hblocked hfirst.symm

theorem inStatus_claim {owner : String} {result : ClaimResult}
    (h : claim now actor db taskId owner = (.ok (result, records), db')) (hclaimed : s ≠ .claimed)
    (hs : InStatus db' id s) : InStatus db id s := by
  rcases claim_ok h with ⟨-, rfl, -⟩ | ⟨-, -, -, hemits⟩
  · exact hs
  · exact inStatus_of_single hemits (fun hp ↦ hclaimed (Option.some.inj hp.2).symm) hs

theorem inStatus_start (h : start now actor db taskId = (.ok (task, records), db'))
    (hother : id ≠ taskId ∨ s ≠ .inProgress) (hs : InStatus db' id s) : InStatus db id s := by
  refine inStatus_of_single (start_ok h).2.2 ?_ hs
  rintro ⟨rfl, hstatus⟩
  exact hother.elim (fun hne ↦ hne rfl) fun hne ↦ hne (Option.some.inj hstatus).symm

theorem inStatus_release (h : release now actor db taskId = (.ok (task, records), db'))
    (hreleased : s ≠ .released) (hs : InStatus db' id s) : InStatus db id s :=
  inStatus_of_single (release_ok h).2 (fun hp ↦ hreleased (Option.some.inj hp.2).symm) hs

theorem inStatus_complete {result : CompleteResult}
    (h : complete now actor db taskId = (.ok (result, records), db'))
    (hother : id ≠ taskId ∨ s ≠ .completed) (hpending : s ≠ .pending) (hs : InStatus db' id s) :
    InStatus db id s := by
  obtain ⟨-, db₁, hemits, hflips⟩ := complete_ok h
  refine inStatus_of_single hemits ?_ (inStatus_of_emits hflips ?_ hs)
  · rintro ⟨rfl, hstatus⟩
    exact hother.elim (fun hne ↦ hne rfl) fun hne ↦ hne (Option.some.inj hstatus).symm
  · intro event hevent
    obtain ⟨a, -, rfl⟩ := List.mem_map.mp hevent
    rintro ⟨-, hstatus⟩
    exact hpending (Option.some.inj hstatus).symm

/-- A completion completes. -/
theorem inStatus_of_complete {result : CompleteResult}
    (h : complete now actor db id = (.ok (result, records), db')) : InStatus db' id .completed := by
  obtain ⟨⟨t, ht, -⟩, db₁, hemits, hflips⟩ := complete_ok h
  have hdone : db₁.board.state id = some (.completed, t.owner) := by
    rw [hemits.board, List.foldl_cons, List.foldl_nil]
    refine (Function.update_self ..).trans ?_
    rw [state_of_getTask ht]
    rfl
  refine ⟨t.owner, ?_⟩
  rw [hflips.board, (foldl_flips actor _ db₁.board).2 id, if_neg, hdone]
  intro hmem
  obtain ⟨o, ho⟩ := isBlocked_iff.mp (mem_newlyUnblocked.mp hmem).2.1
  cases ho.symm.trans hdone

end TaskGraph

/-! ## What a task is about -/

theorem subject_emit {event : TaskEventInput} {record : TaskEventRecord} {t : StoredTask}
    (h : db.emit now event = .ok (record, db')) (ht : db.getTask id = some t) :
    ∃ t', db'.getTask id = some t' ∧ t'.subject = t.subject := by
  obtain ⟨p, hp, -, rfl⟩ := emit_eq_ok_iff.mp h
  obtain ⟨taskId, actor, change⟩ := event
  have hmodify : ∀ k ts, ∃ t', (db.projection.nodes.modify k (change.update ts)
      (change.id_update ts)).find? id = some t' ∧ t'.subject = t.subject := by
    intro k ts
    have hfind : db.projection.nodes.find? id = some t := ht
    rw [Keyed.find?_modify, hfind]
    split_ifs
    · exact ⟨_, rfl, by cases change <;> rfl⟩
    · exact ⟨t, rfl, rfl⟩
  cases change with
  | created subject description activeForm status metadata blockedBy =>
    obtain ⟨nodes, hnodes, rfl⟩ := Option.map_eq_some_iff.mp hp
    have hne : id ≠ taskId := by
      rintro rfl
      have hnone := state_of_emit_created h
      rw [state_of_getTask ht] at hnone
      cases hnone
    refine ⟨t, ?_, rfl⟩
    have hinsert := Keyed.find?_insert hnodes id
    exact hinsert.trans ((if_neg hne).trans ht)
  | _ =>
    cases hp
    exact hmodify _ _

theorem subject_emits {events : List TaskEventInput} {t : StoredTask}
    (h : Emits now db events db') (ht : db.getTask id = some t) :
    ∃ t', db'.getTask id = some t' ∧ t'.subject = t.subject := by
  induction h generalizing t with
  | nil => exact ⟨t, ht, rfl⟩
  | cons h _ ih =>
    obtain ⟨t₁, ht₁, hsubject⟩ := subject_emit h ht
    obtain ⟨t', ht', hsubject'⟩ := ih ht₁
    exact ⟨t', ht', hsubject'.trans hsubject⟩

end QwenHarness.Tasks
