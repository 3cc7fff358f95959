import QwenHarness.Tasks.Completion
import QwenHarness.Tasks.Runs

/-!
# In whose hands a task is

A tenure is what is known of a task in somebody's hands: how far it is, who owns it, and which claim
in the log it is held under. A task that is free or done with has none. Two tenures of one task by
the same owner differ in the claim, and that is what tells a task that was never let go of from one
that was taken back and claimed again.

Each operation changes the tenure of its own task at most: a claim begins one, a start moves it on,
a release and a completion end it. The tasks that a completion unblocks are in nobody's hands.
-/

/-!
## Which runs stay lawful

A run keeps the board lawful exactly as long as no task is released that still waits for another.
That is the one thing that can go wrong: a task that is owned may get a new blocker, which is not
looked at when the task is released, and then it can be picked up although it has to wait.
-/

namespace QwenHarness.Tasks

open TaskDb

/-- If the call releases a task, the blockers of the task are done with. -/
def ReadyToRelease (db : TaskDb) (op : TaskOp) : Prop :=
  match op with
  | .release id | .recoverOwnerLoss id =>
    ∀ t, db.getTask id = some t → isOwned t.status = true →
      allBlockersCompleted db.listDeps id db.isDone = true
  | _ => True

variable {db db' : TaskDb}

/-- A release of a task that is ready for it. -/
theorem lawful_release_of_ready {now : ℕ → ℤ} {actor : Actor} {id : ℤ}
    (hdb : db.board.Lawful) (hready : ReadyToRelease db (.release id))
    {r : Task × List TaskEventRecord} (h : TaskGraph.release now actor db id = (.ok r, db')) :
    db'.board.Lawful := by
  obtain ⟨⟨t, ht, howned⟩, -⟩ := TaskGraph.release_ok h
  exact TaskGraph.lawful_release hdb
    (allBlockersCompleted_iff_not_waiting.mp (hready t ht howned)) h

/-- **One call** keeps the board lawful, if what it releases is ready for it. -/
theorem TaskCall.lawful_run (call : TaskCall) (hdb : db.board.Lawful) (hfaithful : db.Faithful)
    (hready : ReadyToRelease db call.op) : (call.run db).2.board.Lawful := by
  obtain ⟨op, actor, now⟩ := call
  have hkept : ∀ {α : Type} {f : α → TaskOutcome} {result : Except TaskError α × TaskDb},
      (∀ a db', result = (.ok a, db') → db'.board.Lawful) →
      (∀ e db', result = (.error e, db') → db' = db) → (answer f result).2.board.Lawful := by
    intro α f result hok herror
    refine answer_cases (P := fun r ↦ r.2.board.Lawful) hok fun e db' h ↦ ?_
    rwa [herror e db' h]
  rcases op with input | ⟨b, t⟩ | ⟨id, owner⟩ | id | id | id | id | id | ⟨id, metadata⟩ | -
  · exact hkept (fun _ _ ↦ TaskGraph.lawful_create hdb) fun _ _ ↦ TaskGraph.create_error
  · exact hkept (fun _ _ ↦ TaskGraph.lawful_addDependency hdb) fun _ _ ↦ transact_eq_error
  · exact hkept (fun _ _ ↦ TaskGraph.lawful_claim hdb) fun _ _ ↦ TaskGraph.claim_error
  · exact hkept (fun _ _ ↦ TaskGraph.lawful_start hdb) fun _ _ ↦ TaskGraph.start_error
  · exact hkept (fun _ _ ↦ lawful_release_of_ready hdb hready) fun _ _ ↦ TaskGraph.release_error
  · exact hkept (fun _ _ ↦ lawful_release_of_ready hdb hready) fun _ _ ↦ TaskGraph.release_error
  · exact hkept (fun _ _ ↦ TaskGraph.lawful_complete hdb) fun _ _ ↦ transact_eq_error
  · exact hkept (fun _ _ ↦ TaskGraph.lawful_delete hdb) fun _ _ ↦ transact_eq_error
  · exact hkept (fun _ _ ↦ TaskGraph.lawful_setMetadata hdb) fun _ _ ↦ transact_eq_error
  · have hrebuild : TaskGraph.rebuild db = (.ok db.events.length, db) := hfaithful.rebuildProjection
    refine hkept (fun _ _ h ↦ ?_) fun _ _ h ↦ ?_
    · rw [hrebuild] at h
      rwa [← (Prod.mk.inj h).2]
    · rw [hrebuild] at h
      exact (Prod.mk.inj h).2.symm

/-! ## A release that is not ready -/

/-- An owned task can be released, whatever it waits for. -/
theorem TaskGraph.release_of_owned (now : ℕ → ℤ) (actor : Actor) {id : ℤ} {t : StoredTask}
    (ht : db.getTask id = some t) (howned : isOwned t.status = true) :
    ∃ r db', TaskGraph.release now actor db id = (.ok r, db') := by
  obtain ⟨record, db', hemit⟩ :
      ∃ record db', db.emit now ⟨id, actor, .released⟩ = .ok (record, db') :=
    ⟨_, _, emit_eq_ok_iff.mpr ⟨_, rfl, rfl, rfl⟩⟩
  have hstate : db'.board.state id = some (.released, none) := by
    rw [board_emit hemit]
    exact (Function.update_self ..).trans (congrArg (Option.map _) (state_of_getTask ht))
  obtain ⟨t', ht', -, -⟩ := state_eq_some.mp hstate
  refine ⟨(toTask t' db'.listDeps, [record]), db', transact_eq_ok_iff.mpr ?_⟩
  have hreadback : TaskGraph.readback id db' = .ok (toTask t' db'.listDeps) := by
    rw [TaskGraph.readback, ht']
    rfl
  rw [ht, require_some, ok_bind, ensure_of howned, ok_bind, hemit, ok_bind]
  exact congrArg (· >>= _) hreadback

/-- To release a task that waits breaks the law. -/
theorem not_lawful_release (now : ℕ → ℤ) (actor : Actor) {id : ℤ} {t : StoredTask}
    (hdb : db.board.Lawful) (ht : db.getTask id = some t) (howned : isOwned t.status = true)
    (hwaiting : db.board.Waiting id) :
    ¬ (TaskGraph.release now actor db id).2.board.Lawful := by
  obtain ⟨r, db', h⟩ := TaskGraph.release_of_owned now actor ht howned
  obtain ⟨-, hemits⟩ := TaskGraph.release_ok h
  rw [h]
  intro hlawful
  have hboard := hemits.board
  have hid : db'.board.state id = some (.released, none) := by
    rw [hboard]
    exact (Function.update_self ..).trans (congrArg (Option.map _) (state_of_getTask ht))
  refine (hlawful.sound _ _ _ hid).ready rfl ?_
  obtain ⟨b, hb, hopen⟩ := hwaiting
  have hne : b ≠ id := by
    rintro rfl
    exact hdb.acyclic b (.single hb)
  have hother : db'.board.state b = db.board.state b := by
    rw [hboard]
    exact Function.update_of_ne hne _ _
  refine ⟨b, ?_, ?_⟩
  · rw [hboard]
    exact hb
  · rwa [Board.Done, hother, ← Board.Done]

/-- **Which runs stay lawful.** In every state along a run no task waits for itself, every blocked
task waits for an open one, every task that can be picked up waits for none, and a task has an owner
exactly as long as it is in somebody's hands, if and only if every task the run releases is one
whose blockers are done with at that time. -/
theorem lawful_iff_ready (calls : List TaskCall) :
    (∀ n, (runAll (calls.take n) TaskDb.empty).board.Lawful) ↔
      ∀ n call, calls[n]? = some call →
        ReadyToRelease (runAll (calls.take n) TaskDb.empty) call.op := by
  have hstep : ∀ n call, calls[n]? = some call → runAll (calls.take (n + 1)) TaskDb.empty =
      (call.run (runAll (calls.take n) TaskDb.empty)).2 := by
    intro n call hcall
    rw [List.take_add_one, hcall, Option.toList_some, runAll_append]
    rfl
  constructor
  · intro h n call hcall
    have hafter := h (n + 1)
    rw [hstep n call hcall] at hafter
    obtain ⟨op, actor, now⟩ := call
    have hrelease : ∀ id, (answer (fun _ ↦ .done) (TaskGraph.release now actor
        (runAll (calls.take n) TaskDb.empty) id)).2.board.Lawful →
        ReadyToRelease (runAll (calls.take n) TaskDb.empty) (.release id) := by
      intro id hlawful t ht howned
      rw [allBlockersCompleted_iff_not_waiting]
      intro hwaiting
      refine not_lawful_release now actor (h n) ht howned hwaiting ?_
      revert hlawful
      refine answer_cases (P := fun r ↦ r.2.board.Lawful → _) ?_ ?_
      · rintro a db' heq hlawful
        rwa [heq]
      · rintro e db' heq hlawful
        rwa [heq]
    cases op with
    | release id => exact hrelease id hafter
    | recoverOwnerLoss id => exact hrelease id hafter
    | _ => exact trivial
  · intro h n
    induction n with
    | zero =>
      rw [List.take_zero, runAll, List.foldl_nil, board_empty]
      exact Board.lawful_empty
    | succ n ih =>
      cases hcall : calls[n]? with
      | none =>
        rw [List.take_add_one, hcall, Option.toList_none, List.append_nil]
        exact ih
      | some call =>
        rw [hstep n call hcall]
        exact call.lawful_run ih (faithful_runAll _ faithful_empty) (h n call hcall)

/-! ## A task released too early -/

private def lead : Actor := ⟨.system, "act_teamlead", some "lead"⟩

private def plainInput (subject : String) : CreateTaskInput :=
  ⟨subject, none, subject, none, none⟩

/-- Two tasks; the second is claimed, then made to wait for the first, then released. -/
def releasedTooEarly : List TaskCall :=
  [.create (plainInput "a"), .create (plainInput "b"), .claim 2 "mem_a", .addDependency 1 2,
    .release 2].map fun op ↦ ⟨op, lead, fun _ ↦ 0⟩

/-- The second task can be picked up although it waits for the first. -/
theorem not_lawful_releasedTooEarly :
    ¬ ∀ calls n, (runAll (List.take n calls) TaskDb.empty).board.Lawful := by
  intro h
  have hlawful := h releasedTooEarly 5
  have hstatus : ((runAll (releasedTooEarly.take 5) TaskDb.empty).getTask 2).map
      StoredTask.status = some .released := by decide
  have hwaits : allBlockersCompleted (runAll (releasedTooEarly.take 5) TaskDb.empty).listDeps 2
      (runAll (releasedTooEarly.take 5) TaskDb.empty).isDone = false := by decide
  obtain ⟨t, ht, hs⟩ := Option.map_eq_some_iff.mp hstatus
  have hready := (hlawful.sound _ _ _ (state_of_getTask ht)).ready (by rw [hs]; rfl)
  rw [allBlockersCompleted_iff_not_waiting.mpr hready] at hwaits
  cases hwaits

end QwenHarness.Tasks

namespace QwenHarness.Tasks

open TaskDb

/-! ## The last claim -/

def isClaimOf (id : ℤ) (record : TaskEventRecord) : Bool :=
  decide (record.taskId = id ∧ record.type = .claimed)

/-- The place in the log of the last claim of a task. -/
def lastClaim (db : TaskDb) (id : ℤ) : Option ℕ :=
  (db.events.filter (isClaimOf id)).getLast?.map TaskEventRecord.seq

variable {now : ℕ → ℤ} {actor : Actor} {db db' : TaskDb} {id : ℤ}

theorem lastClaim_emit {event : TaskEventInput} {record : TaskEventRecord}
    (h : db.emit now event = .ok (record, db')) (id : ℤ) :
    lastClaim db' id = if event.taskId = id ∧ event.change.type = .claimed then
      some (db.events.length + 1) else lastClaim db id := by
  obtain ⟨p, -, -, rfl⟩ := emit_eq_ok_iff.mp h
  rw [lastClaim, lastClaim, List.filter_append]
  by_cases hc : event.taskId = id ∧ event.change.type = .claimed
  · have hyes : isClaimOf id (logged (db.events.length + 1) (now (db.events.length + 1)) event) =
        true := decide_eq_true hc
    rw [if_pos hc, List.filter_cons_of_pos hyes, List.filter_nil, List.getLast?_concat]
    rfl
  · have hnot : ¬ isClaimOf id (logged (db.events.length + 1) (now (db.events.length + 1)) event) =
        true := by
      rwa [isClaimOf, decide_eq_true_eq]
    rw [if_neg hc, List.filter_cons_of_neg hnot, List.filter_nil, List.append_nil]

/-- Events that claim nothing leave the last claims. -/
theorem lastClaim_emits {events : List TaskEventInput} (h : Emits now db events db')
    (hevents : ∀ e ∈ events, e.change.type ≠ .claimed) (id : ℤ) :
    lastClaim db' id = lastClaim db id := by
  induction h with
  | nil => rfl
  | cons h _ ih =>
    obtain ⟨hevent, hevents⟩ := List.forall_mem_cons.mp hevents
    rw [ih hevents, lastClaim_emit h, if_neg fun hc ↦ hevent hc.2]

theorem lastClaim_single {event : TaskEventInput} (h : Emits now db [event] db')
    (hevent : event.change.type ≠ .claimed) (id : ℤ) : lastClaim db' id = lastClaim db id :=
  lastClaim_emits h (List.forall_mem_singleton.mpr hevent) id

theorem lastClaim_flips {ids : List ℤ} (h : Emits now db (TaskGraph.flips actor ids) db') (id : ℤ) :
    lastClaim db' id = lastClaim db id := by
  refine lastClaim_emits h (fun e he ↦ ?_) id
  obtain ⟨_, -, rfl⟩ := List.mem_map.mp he
  rintro ⟨⟩

/-- No claim is numbered past the end of the log. -/
def Numbered (db : TaskDb) : Prop := ∀ id c, lastClaim db id = some c → c ≤ db.events.length

theorem numbered_empty : Numbered TaskDb.empty := by
  rintro id c ⟨⟩

theorem Numbered.emits {events : List TaskEventInput} (hdb : Numbered db)
    (h : Emits now db events db') : db.events.length ≤ db'.events.length ∧ Numbered db' := by
  induction h with
  | nil => exact ⟨le_rfl, hdb⟩
  | @cons db db₁ db₂ event events record h _ ih =>
    have hlength : db₁.events.length = db.events.length + 1 := by
      obtain ⟨p, -, -, rfl⟩ := emit_eq_ok_iff.mp h
      exact List.length_append
    have hdb₁ : Numbered db₁ := by
      intro id c hc
      rw [lastClaim_emit h] at hc
      split_ifs at hc
      · cases hc
        omega
      · have hle := hdb id c hc
        omega
    obtain ⟨hle, hdb₂⟩ := ih hdb₁
    exact ⟨by omega, hdb₂⟩

theorem TaskCall.numbered_run (call : TaskCall) (hfaithful : db.Faithful) (hdb : Numbered db) :
    Numbered (call.run db).2 := by
  rcases call.settles hfaithful with ⟨heq, -⟩ | ⟨hwrites, -⟩
  · rwa [heq]
  · generalize (call.run db).1.createdId = i at hwrites
    rcases hwrites with h | h
    · exact (hdb.emits h).2
    · have hnext : Numbered { db with nextId := db.nextId + 1 } := hdb
      exact (hnext.emits h).2

theorem numbered_runAll (calls : List TaskCall) (hfaithful : db.Faithful) (hdb : Numbered db) :
    Numbered (runAll calls db) := by
  induction calls generalizing db with
  | nil => exact hdb
  | cons call calls ih =>
    exact ih (call.faithful_run hfaithful) (call.numbered_run hfaithful hdb)

/-! ## Tenures -/

/-- How a task is held. -/
@[ext] structure Tenure where
  status : TaskStatus
  owner : Option String
  claim : Option ℕ
deriving DecidableEq, Repr

/-- The tenure a task has in this state, held under this claim. -/
def Tenure.of (claim : Option ℕ) (s : TaskStatus × Option String) : Option Tenure :=
  if isOwned s.1 = true then some ⟨s.1, s.2, claim⟩ else none

def tenure (db : TaskDb) (id : ℤ) : Option Tenure :=
  (db.board.state id).bind (Tenure.of (lastClaim db id))

theorem tenure_of_state {s : TaskStatus × Option String} (h : db.board.state id = some s) :
    tenure db id = Tenure.of (lastClaim db id) s := by
  rw [tenure, h, Option.bind_some]

theorem tenure_eq_some {τ : Tenure} : tenure db id = some τ ↔
    isOwned τ.status = true ∧ db.board.state id = some (τ.status, τ.owner) ∧
      lastClaim db id = τ.claim := by
  obtain ⟨s, o, c⟩ := τ
  rw [tenure, Option.bind_eq_some_iff]
  constructor
  · rintro ⟨⟨s', o'⟩, hstate, h⟩
    rw [Tenure.of] at h
    split_ifs at h with howned
    cases h
    exact ⟨howned, hstate, rfl⟩
  · rintro ⟨howned, hstate, hclaim⟩
    exact ⟨(s, o), hstate, (if_pos howned).trans (by rw [hclaim])⟩

theorem tenure_ne_none {t : StoredTask} (ht : db.getTask id = some t) :
    tenure db id ≠ none ↔ isOwned t.status = true := by
  rw [tenure_of_state (state_of_getTask ht), Tenure.of]
  split_ifs with howned
  · exact iff_of_true (Option.some_ne_none _) howned
  · exact iff_of_false (fun h ↦ h rfl) howned

/-- The tenures after one event about a task that is no claim. -/
theorem tenure_adjust {event : TaskEventInput} {f : TaskStatus × Option String → _}
    (hemits : Emits now db [event] db') (hevent : event.change.type ≠ .claimed)
    (hboard : db.board.apply event = db.board.adjust id f) :
    tenure db' = Function.update (tenure db) id
      ((db.board.state id).bind fun s ↦ Tenure.of (lastClaim db id) (f s)) := by
  have hstate : db'.board.state =
      Function.update db.board.state id ((db.board.state id).map f) := by
    rw [hemits.board, List.foldl_cons, List.foldl_nil, hboard]
    rfl
  funext a
  rw [tenure, lastClaim_single hemits hevent, hstate]
  by_cases ha : a = id
  · subst ha
    rw [Function.update_self, Function.update_self, Option.bind_map]
    rfl
  · rw [Function.update_of_ne ha, Function.update_of_ne ha]
    rfl

/-- Tasks that are blocked are in nobody's hands, and so they are after they were flipped. -/
theorem tenure_flips {ids : List ℤ} (hemits : Emits now db (TaskGraph.flips actor ids) db')
    (hblocked : ∀ a ∈ ids, db.isBlocked a = true) : tenure db' = tenure db := by
  funext a
  rw [tenure, tenure, lastClaim_flips hemits, hemits.board,
    (TaskGraph.foldl_flips actor ids db.board).2 a]
  split_ifs with ha
  · obtain ⟨o, ho⟩ := isBlocked_iff.mp (hblocked a ha)
    rw [ho]
    rfl
  · rfl

namespace TaskGraph

variable {task : Task} {records : List TaskEventRecord}

/-- **A claim** that is won begins a tenure. -/
theorem tenure_claim {owner : String}
    (h : claim now actor db id owner = (.ok (.won task, records), db')) :
    tenure db id = none ∧ tenure db' = Function.update (tenure db) id
      (some ⟨.claimed, some owner, some (db.events.length + 1)⟩) := by
  rcases claim_ok h with ⟨⟨_, hlost⟩, -⟩ | ⟨-, -, ⟨t, ht, -, hclaim⟩, hemits⟩
  · cases hlost
  · have hnone : tenure db id = none := by
      have hcases : t.status = .pending ∨ t.status = .released := by
        simpa [isClaimable] using hclaim
      rw [tenure_of_state (state_of_getTask ht)]
      rcases hcases with hs | hs <;> rw [hs] <;> rfl
    refine ⟨hnone, funext fun a ↦ ?_⟩
    have hstate : db'.board.state = Function.update db.board.state id
        (some (.claimed, some owner)) := by
      rw [hemits.board, List.foldl_cons, List.foldl_nil]
      exact congrArg (Function.update _ id) (congrArg (Option.map _) (state_of_getTask ht))
    rcases hemits with - | ⟨hemit, hnil⟩
    cases hnil
    rw [tenure, lastClaim_emit hemit, hstate]
    by_cases ha : a = id
    · subst ha
      rw [Function.update_self, Function.update_self, if_pos ⟨rfl, rfl⟩]
      rfl
    · rw [Function.update_of_ne ha, Function.update_of_ne ha, if_neg fun hc ↦ ha hc.1.symm]
      rfl

theorem lastClaim_claim {owner : String}
    (h : claim now actor db id owner = (.ok (.won task, records), db')) :
    lastClaim db' = Function.update (lastClaim db) id (some (db.events.length + 1)) := by
  rcases claim_ok h with ⟨⟨_, hlost⟩, -⟩ | ⟨-, -, -, hemits⟩
  · cases hlost
  · rcases hemits with - | ⟨hemit, hnil⟩
    cases hnil
    funext a
    rw [lastClaim_emit hemit, Function.update_apply]
    refine if_congr ?_ rfl rfl
    exact (and_iff_left rfl).trans eq_comm

/-- **A start** moves a tenure on. -/
theorem tenure_start (h : start now actor db id = (.ok (task, records), db')) :
    ∃ o, tenure db id = some ⟨.claimed, o, lastClaim db id⟩ ∧
      tenure db' = Function.update (tenure db) id (some ⟨.inProgress, o, lastClaim db id⟩) := by
  obtain ⟨⟨t, ht, hclaimed⟩, -, hemits⟩ := start_ok h
  have hstate := state_of_getTask ht
  rw [hclaimed] at hstate
  refine ⟨t.owner, tenure_of_state hstate, ?_⟩
  rw [tenure_adjust hemits (by rintro ⟨⟩) rfl, hstate]
  rfl

/-- **A release** ends a tenure. -/
theorem tenure_release (h : release now actor db id = (.ok (task, records), db')) :
    tenure db id ≠ none ∧ tenure db' = Function.update (tenure db) id none := by
  obtain ⟨⟨t, ht, howned⟩, hemits⟩ := release_ok h
  refine ⟨(tenure_ne_none ht).mpr howned, ?_⟩
  rw [tenure_adjust hemits (by rintro ⟨⟩) rfl, state_of_getTask ht]
  rfl

/-- **A completion** ends a tenure too. -/
theorem tenure_complete {result : CompleteResult}
    (h : complete now actor db id = (.ok (result, records), db')) :
    (tenure db id).map Tenure.status = some .inProgress ∧
      tenure db' = Function.update (tenure db) id none := by
  obtain ⟨⟨t, ht, hs⟩, db₁, hemits, hflips⟩ := complete_ok h
  have hstate := state_of_getTask ht
  rw [hs] at hstate
  refine ⟨congrArg _ (tenure_of_state hstate), ?_⟩
  rw [tenure_flips hflips fun _ ha ↦ (mem_newlyUnblocked.mp ha).2.1,
    tenure_adjust hemits (by rintro ⟨⟩) rfl, hstate]
  rfl

/-! ### The claims that were made stay -/

theorem lastClaim_start (h : start now actor db id = (.ok (task, records), db')) :
    lastClaim db' = lastClaim db :=
  funext (lastClaim_single (start_ok h).2.2 (by rintro ⟨⟩))

theorem lastClaim_release (h : release now actor db id = (.ok (task, records), db')) :
    lastClaim db' = lastClaim db :=
  funext (lastClaim_single (release_ok h).2 (by rintro ⟨⟩))

theorem lastClaim_complete {result : CompleteResult}
    (h : complete now actor db id = (.ok (result, records), db')) :
    lastClaim db' = lastClaim db := by
  obtain ⟨-, db₁, hemits, hflips⟩ := complete_ok h
  funext a
  rw [lastClaim_flips hflips, lastClaim_single hemits (by rintro ⟨⟩)]

end TaskGraph

end QwenHarness.Tasks
