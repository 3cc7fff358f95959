import QwenHarness.Tasks.Tenure

/-!
# What may be done is done

An operation that is legal does not fail: the database takes every event but the creation of a task
whose id is taken, and a task that is there stays there. So whether an operation succeeds is known
from the state of its task and from its blockers.
-/

namespace QwenHarness.Tasks

open TaskDb

variable {db db' : TaskDb} {id : ℤ}

/-- Every event but a creation goes through. -/
theorem exists_emit (now : ℕ → ℤ) (db : TaskDb) (event : TaskEventInput)
    (hevent : event.change.type ≠ .created) :
    ∃ record db', db.emit now event = .ok (record, db') := by
  obtain ⟨taskId, actor, change⟩ := event
  cases change with
  | created => exact absurd rfl hevent
  | _ => exact ⟨_, _, emit_eq_ok_iff.mpr ⟨_, rfl, rfl, rfl⟩⟩

/-- A task that is there stays there. -/
theorem state_apply_ne_none {B : Board ℤ String} (event : TaskEventInput)
    (h : B.state id ≠ none) : (B.apply event).state id ≠ none := by
  have hadjust : ∀ f, (B.adjust event.taskId f).state id ≠ none := by
    intro f
    by_cases hid : id = event.taskId
    · rw [hid] at h ⊢
      have hself : (B.adjust event.taskId f).state event.taskId =
          (B.state event.taskId).map f := Function.update_self ..
      rwa [hself, ne_eq, Option.map_eq_none_iff]
    · have hother : (B.adjust event.taskId f).state id = B.state id :=
        Function.update_of_ne hid _ _
      rwa [hother]
  obtain ⟨taskId, actor, change⟩ := event
  cases change with
  | created subject description activeForm status metadata blockedBy =>
    by_cases hid : id = taskId
    · subst hid
      refine ne_of_eq_of_ne (Function.update_self ..) ?_
      exact Option.some_ne_none _
    · exact ne_of_eq_of_ne (Function.update_of_ne hid _ _) h
  | metadataUpdated metadata => exact h
  | dependencyAdded blockerId blockedId => exact h
  | _ => exact hadjust _

theorem TaskDb.Emits.state_ne_none {now : ℕ → ℤ} {events : List TaskEventInput}
    (h : Emits now db events db') (hid : db.board.state id ≠ none) :
    db'.board.state id ≠ none := by
  induction h with
  | nil => exact hid
  | @cons db db₁ _ event _ _ h _ ih =>
    refine ih ?_
    rw [board_emit h]
    exact state_apply_ne_none event hid

namespace TaskGraph

variable (now : ℕ → ℤ) (actor : Actor)

theorem readback_of_known (h : db.board.state id ≠ none) : ∃ task, readback id db = .ok task := by
  obtain ⟨t, ht⟩ := Option.ne_none_iff_exists'.mp fun hn ↦ h (state_eq_none.mpr hn)
  refine ⟨toTask t db.listDeps, ?_⟩
  rw [readback, ht]
  rfl

/-- A free task can be claimed. -/
theorem claim_of_free {owner : String} {t : StoredTask} (howner : isOwnerId owner = true)
    (ht : db.getTask id = some t) (hfree : t.owner = none) (hclaim : isClaimable t.status = true) :
    ∃ task records db', claim now actor db id owner = (.ok (.won task, records), db') := by
  obtain ⟨record, db', hemit⟩ := exists_emit now db ⟨id, actor, .claimed owner⟩
    (by rintro ⟨⟩)
  have hknown : db'.board.state id ≠ none := by
    refine TaskDb.Emits.state_ne_none (.single hemit) ?_
    rw [state_of_getTask ht]
    exact Option.some_ne_none _
  obtain ⟨t', ht'⟩ := Option.ne_none_iff_exists'.mp fun hn ↦ hknown (state_eq_none.mpr hn)
  refine ⟨toTask t' db'.listDeps, [record], db', ?_⟩
  rw [claim, if_neg (Bool.not_eq_false _ ▸ howner)]
  refine transact_eq_ok_iff.mpr ?_
  simp only [ht, hfree]
  rw [if_neg (Bool.not_eq_false _ ▸ hclaim), hemit, ok_bind]
  simp only [ht']
  rfl

/-- A claim changes nothing for who waits. -/
theorem waiting_claim {actor : Actor} {now : ℕ → ℤ} {owner : String} {result : ClaimResult}
    {records : List TaskEventRecord}
    (h : claim now actor db id owner = (.ok (result, records), db')) (a : ℤ) :
    db'.board.Waiting a ↔ db.board.Waiting a := by
  rcases claim_ok h with ⟨-, rfl, -⟩ | ⟨-, -, ⟨t, ht, -, hclaim⟩, hemits⟩
  · exact Iff.rfl
  · have hstate := state_of_getTask ht
    have hboard : db'.board = db.board.adjust id fun _ ↦ (.claimed, some owner) := hemits.board
    have hself : db'.board.state id = some (.claimed, some owner) := by
      rw [hboard]
      exact (Function.update_self ..).trans (congrArg (Option.map _) hstate)
    refine exists_congr fun b ↦ and_congr (by rw [hboard]; rfl) (not_congr ?_)
    by_cases hb : b = id
    · subst hb
      have hcases : t.status = .pending ∨ t.status = .released := by
        simpa [isClaimable] using hclaim
      rw [Board.done_of_state hself, Board.done_of_state hstate]
      rcases hcases with hs | hs <;> rw [hs] <;> decide
    · have hother : db'.board.state b = db.board.state b := by
        rw [hboard]
        exact Function.update_of_ne hb _ _
      rw [Board.Done, Board.Done, hother]

/-- A claimed task whose blockers are done with can be started. -/
theorem start_of_ready {t : StoredTask} (ht : db.getTask id = some t) (hs : t.status = .claimed)
    (hready : allBlockersCompleted db.listDeps id db.isDone = true) :
    ∃ r db', start now actor db id = (.ok r, db') := by
  obtain ⟨record, db', hemit⟩ := exists_emit now db ⟨id, actor, .statusChanged .inProgress⟩
    (by rintro ⟨⟩)
  have hknown : db'.board.state id ≠ none := by
    refine TaskDb.Emits.state_ne_none (.single hemit) ?_
    rw [state_of_getTask ht]
    exact Option.some_ne_none _
  obtain ⟨task, hreadback⟩ := readback_of_known hknown
  refine ⟨(task, [record]), db', ?_⟩
  rw [start, simpleTransition]
  refine transact_eq_ok_iff.mpr ?_
  rw [ht, require_some, ok_bind, ensure_of (canTransition_inProgress.mpr hs), ok_bind,
    ensure_of hready, ok_bind, transition, hemit, ok_bind]
  exact congrArg (· >>= _) hreadback

theorem exists_flipAll (ids : List ℤ) (h : ∀ a ∈ ids, db.board.state a ≠ none) :
    ∃ flipped db', flipAll now actor ids db = .ok (flipped, db') := by
  induction ids generalizing db with
  | nil => exact ⟨_, _, rfl⟩
  | cons id ids ih =>
    obtain ⟨hid, hids⟩ := List.forall_mem_cons.mp h
    obtain ⟨record, db₁, hemit⟩ := exists_emit now db ⟨id, actor, .statusChanged .pending⟩
      (by rintro ⟨⟩)
    have hemits : Emits now db _ db₁ := .single hemit
    obtain ⟨task, hreadback⟩ := readback_of_known (hemits.state_ne_none hid)
    obtain ⟨⟨tasks, records⟩, db', hflip⟩ := ih fun a ha ↦ hemits.state_ne_none (hids a ha)
    refine ⟨(task :: tasks, record :: records), db', ?_⟩
    rw [flipAll, transition, hemit, ok_bind]
    simp only [hreadback, ok_bind, hflip]
    rfl

/-- A task in progress can be completed. -/
theorem complete_of_inProgress {t : StoredTask} (ht : db.getTask id = some t)
    (hs : t.status = .inProgress) : ∃ r db', complete now actor db id = (.ok r, db') := by
  obtain ⟨record, db₁, hemit⟩ := exists_emit now db ⟨id, actor, .statusChanged .completed⟩
    (by rintro ⟨⟩)
  have hemits : Emits now db _ db₁ := .single hemit
  obtain ⟨⟨tasks, records⟩, db', hflip⟩ := exists_flipAll now actor
    (newlyUnblocked db₁.listDeps id db₁.isBlocked db₁.isDone) fun a ha ↦ by
      obtain ⟨o, ho⟩ := isBlocked_iff.mp (mem_newlyUnblocked.mp ha).2.1
      rw [ho]
      exact Option.some_ne_none _
  have hknown : db'.board.state id ≠ none := by
    refine (flipAll_ok hflip).state_ne_none (hemits.state_ne_none ?_)
    rw [state_of_getTask ht]
    exact Option.some_ne_none _
  obtain ⟨task, hreadback⟩ := readback_of_known hknown
  refine ⟨(⟨task, tasks⟩, record :: records), db', transact_eq_ok_iff.mpr ?_⟩
  rw [ht, require_some, ok_bind, ensure_of (canTransition_completed.mpr hs), ok_bind, transition,
    hemit, ok_bind]
  simp only [unblockDownstream, hflip, ok_bind, hreadback]
  rfl

/-- Whether a release succeeds. -/
theorem release_succeeds_iff :
    (∃ r db', release now actor db id = (.ok r, db')) ↔ tenure db id ≠ none := by
  constructor
  · rintro ⟨⟨task, records⟩, db', h⟩
    exact (tenure_release h).1
  · intro h
    obtain ⟨τ, hτ⟩ := Option.ne_none_iff_exists'.mp h
    obtain ⟨howned, hstate, -⟩ := tenure_eq_some.mp hτ
    obtain ⟨t, ht, hs, -⟩ := state_eq_some.mp hstate
    exact release_of_owned now actor ht (hs ▸ howned)

/-- Whether a completion succeeds. -/
theorem complete_succeeds_iff :
    (∃ r db', complete now actor db id = (.ok r, db')) ↔
      (tenure db id).map Tenure.status = some .inProgress := by
  constructor
  · rintro ⟨⟨result, records⟩, db', h⟩
    exact (tenure_complete h).1
  · intro h
    obtain ⟨τ, hτ, hs⟩ := Option.map_eq_some_iff.mp h
    obtain ⟨-, hstate, -⟩ := tenure_eq_some.mp hτ
    obtain ⟨t, ht, hst, -⟩ := state_eq_some.mp hstate
    exact complete_of_inProgress now actor ht (hst.trans hs)

end TaskGraph

end QwenHarness.Tasks
