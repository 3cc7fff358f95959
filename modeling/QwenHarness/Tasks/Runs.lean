import QwenHarness.Tasks.Lawful

/-!
# Runs of the task graph

A run is any sequence of calls on the graph, some of which throw. Each call reads the clock as often
as it writes an event. A rebuild is a call like any other.
-/

namespace QwenHarness.Tasks

open Codec TaskDb

/-- A call on the graph. -/
inductive TaskOp where
  | create (input : CreateTaskInput)
  | addDependency (blockerId blockedId : ℤ)
  | claim (id : ℤ) (owner : String)
  | start (id : ℤ)
  | release (id : ℤ)
  | recoverOwnerLoss (id : ℤ)
  | complete (id : ℤ)
  | delete (id : ℤ)
  | setMetadata (id : ℤ) (metadata : List (String × Value))
  | rebuild

/-- A call with who makes it and what its clock reads. -/
structure TaskCall where
  op : TaskOp
  actor : Actor
  now : ℕ → ℤ

/-- What a call returns, as far as it is looked at: the id a task was created under. -/
inductive TaskOutcome where
  | created (id : ℤ)
  | done
  | failed (error : TaskError)

/-- The id a call created a task under. -/
def TaskOutcome.createdId : TaskOutcome → Option ℤ
  | .created id => some id
  | _ => none

def answer {α : Type} (f : α → TaskOutcome) (result : Except TaskError α × TaskDb) :
    TaskOutcome × TaskDb :=
  match result with
  | (.ok a, db) => (f a, db)
  | (.error e, db) => (.failed e, db)

/-- Make the call. -/
def TaskCall.run (call : TaskCall) (db : TaskDb) : TaskOutcome × TaskDb :=
  match call.op with
  | .create input =>
    answer (fun r ↦ .created r.1.id) (TaskGraph.create call.now call.actor db input)
  | .addDependency blockerId blockedId =>
    answer (fun _ ↦ .done) (TaskGraph.addDependency call.now call.actor db blockerId blockedId)
  | .claim id owner => answer (fun _ ↦ .done) (TaskGraph.claim call.now call.actor db id owner)
  | .start id => answer (fun _ ↦ .done) (TaskGraph.start call.now call.actor db id)
  | .release id => answer (fun _ ↦ .done) (TaskGraph.release call.now call.actor db id)
  | .recoverOwnerLoss id =>
    answer (fun _ ↦ .done) (TaskGraph.recoverOwnerLoss call.now call.actor db id)
  | .complete id => answer (fun _ ↦ .done) (TaskGraph.complete call.now call.actor db id)
  | .delete id => answer (fun _ ↦ .done) (TaskGraph.delete call.now call.actor db id)
  | .setMetadata id metadata =>
    answer (fun _ ↦ .done) (TaskGraph.setMetadata call.now call.actor db id metadata)
  | .rebuild => answer (fun _ ↦ .done) (TaskGraph.rebuild db)

/-- The store after a run. -/
def runAll (calls : List TaskCall) (db : TaskDb) : TaskDb :=
  calls.foldl (fun db call ↦ (call.run db).2) db

theorem runAll_append (calls calls' : List TaskCall) (db : TaskDb) :
    runAll (calls ++ calls') db = runAll calls' (runAll calls db) := List.foldl_append ..

/-! ## What a call does -/

/-- A call writes events, after it took an id or not. -/
inductive Writes (now : ℕ → ℤ) (db db' : TaskDb) : Option ℤ → Prop
  | plain {events : List TaskEventInput} (h : Emits now db events db') : Writes now db db' none
  | fresh {events : List TaskEventInput}
      (h : Emits now { db with nextId := db.nextId + 1 } events db') :
      Writes now db db' (some db.nextId)

variable {db db' : TaskDb}

theorem Writes.faithful {now : ℕ → ℤ} {id : Option ℤ} (h : Writes now db db' id)
    (hdb : db.Faithful) : db'.Faithful := by
  rcases h with h | h
  · exact hdb.emits h
  · have hnext : ({ db with nextId := db.nextId + 1 } : TaskDb).Faithful := hdb
    exact hnext.emits h

theorem answer_cases {α : Type} {f : α → TaskOutcome} {result : Except TaskError α × TaskDb}
    {P : TaskOutcome × TaskDb → Prop} (hok : ∀ a db', result = (.ok a, db') → P (f a, db'))
    (herror : ∀ e db', result = (.error e, db') → P (.failed e, db')) : P (answer f result) := by
  obtain ⟨r | a, db'⟩ := result
  · exact herror _ _ rfl
  · exact hok _ _ rfl

/-- A call leaves the store as it was, and creates nothing, or it writes events and returns. -/
def Settles (now : ℕ → ℤ) (db : TaskDb) (r : TaskOutcome × TaskDb) : Prop :=
  r.2 = db ∧ r.1.createdId = none ∨ Writes now db r.2 r.1.createdId ∧ ∀ e, r.1 ≠ .failed e

/-- A call that fails, or emits events and returns. -/
theorem Settles.of_emits {α : Type} {now : ℕ → ℤ} {result : Except TaskError α × TaskDb}
    (hok : ∀ a db', result = (.ok a, db') → ∃ events, Emits now db events db')
    (herror : ∀ e db', result = (.error e, db') → db' = db) :
    Settles now db (answer (fun _ ↦ .done) result) := by
  refine answer_cases (fun a db' h ↦ ?_) fun e db' h ↦ .inl ⟨herror e db' h, rfl⟩
  obtain ⟨events, hemits⟩ := hok a db' h
  exact .inr ⟨.plain hemits, by rintro _ ⟨⟩⟩

/-- **What a call can do.** -/
theorem TaskCall.settles (call : TaskCall) (hdb : db.Faithful) :
    Settles call.now db (call.run db) := by
  obtain ⟨op, actor, now⟩ := call
  have herror : ∀ {α : Type} {mutator : TaskDb → Except TaskError (α × TaskDb)},
      ∀ e db', db.transact mutator = (.error e, db') → db' = db :=
    fun _ _ ↦ transact_eq_error
  rcases op with input | ⟨b, t⟩ | ⟨id, owner⟩ | id | id | id | id | id | ⟨id, metadata⟩ | -
  · refine answer_cases (fun a db' h ↦ .inr ⟨?_, by rintro _ ⟨⟩⟩)
      fun e db' h ↦ .inl ⟨TaskGraph.create_error h, rfl⟩
    obtain ⟨parsed, -, -, -, hid, hemits⟩ := TaskGraph.create_ok h
    have hcreated : (TaskOutcome.created a.1.id).createdId = some db.nextId := congrArg some hid
    rw [hcreated]
    exact .fresh hemits
  · refine .of_emits (fun a db' h ↦ ?_) herror
    obtain ⟨_, _, -, -, -, hemits⟩ := TaskGraph.addDependency_ok h
    exact ⟨_, hemits⟩
  · refine .of_emits (fun a db' h ↦ ?_) fun _ _ ↦ TaskGraph.claim_error
    rcases TaskGraph.claim_ok h with ⟨-, rfl, -⟩ | ⟨-, -, -, hemits⟩
    · exact ⟨[], .nil⟩
    · exact ⟨_, hemits⟩
  · exact .of_emits (fun a db' h ↦ ⟨_, (TaskGraph.start_ok h).2.2⟩) fun _ _ ↦ TaskGraph.start_error
  · exact .of_emits (fun a db' h ↦ ⟨_, (TaskGraph.release_ok h).2⟩)
      fun _ _ ↦ TaskGraph.release_error
  · exact .of_emits (fun a db' h ↦ ⟨_, (TaskGraph.release_ok h).2⟩)
      fun _ _ ↦ TaskGraph.release_error
  · refine .of_emits (fun a db' h ↦ ?_) herror
    obtain ⟨-, _, hemits, hflips⟩ := TaskGraph.complete_ok h
    exact ⟨_, hemits.append hflips⟩
  · refine .of_emits (fun a db' h ↦ ?_) herror
    obtain ⟨-, _, hemits, hflips⟩ := TaskGraph.delete_ok h
    exact ⟨_, hemits.append hflips⟩
  · exact .of_emits (fun a db' h ↦ ⟨_, (TaskGraph.setMetadata_ok h).2⟩) herror
  · left
    have hrebuild : TaskCall.run ⟨.rebuild, actor, now⟩ db = (.done, db) := by
      rw [TaskCall.run, TaskGraph.rebuild, hdb.rebuildProjection, answer]
    rw [hrebuild]
    exact ⟨rfl, rfl⟩

/-- **What every operation that succeeds leaves** is left by every call. A call that fails changes
nothing, and neither does a rebuild. -/
theorem TaskCall.run_preserves (call : TaskCall) (hfaithful : db.Faithful) {P : TaskDb → Prop}
    (hdb : P db)
    (hcreate : ∀ input r db', TaskGraph.create call.now call.actor db input = (.ok r, db') → P db')
    (hdependency : ∀ b t r db',
      TaskGraph.addDependency call.now call.actor db b t = (.ok r, db') → P db')
    (hclaim : ∀ id owner r db',
      TaskGraph.claim call.now call.actor db id owner = (.ok r, db') → P db')
    (hstart : ∀ id r db', TaskGraph.start call.now call.actor db id = (.ok r, db') → P db')
    (hrelease : ∀ id r db', TaskGraph.release call.now call.actor db id = (.ok r, db') → P db')
    (hcomplete : ∀ id r db', TaskGraph.complete call.now call.actor db id = (.ok r, db') → P db')
    (hdelete : ∀ id r db', TaskGraph.delete call.now call.actor db id = (.ok r, db') → P db')
    (hmetadata : ∀ id metadata r db',
      TaskGraph.setMetadata call.now call.actor db id metadata = (.ok r, db') → P db') :
    P (call.run db).2 := by
  obtain ⟨op, actor, now⟩ := call
  have hkept : ∀ {α : Type} {f : α → TaskOutcome} {result : Except TaskError α × TaskDb},
      (∀ a db', result = (.ok a, db') → P db') →
      (∀ e db', result = (.error e, db') → db' = db) → P (answer f result).2 := by
    intro α f result hok herror
    refine answer_cases (P := fun r ↦ P r.2) hok fun e db' h ↦ ?_
    rwa [herror e db' h]
  rcases op with input | ⟨b, t⟩ | ⟨id, owner⟩ | id | id | id | id | id | ⟨id, metadata⟩ | -
  · exact hkept (hcreate input) fun _ _ ↦ TaskGraph.create_error
  · exact hkept (hdependency b t) fun _ _ ↦ transact_eq_error
  · exact hkept (hclaim id owner) fun _ _ ↦ TaskGraph.claim_error
  · exact hkept (hstart id) fun _ _ ↦ TaskGraph.start_error
  · exact hkept (hrelease id) fun _ _ ↦ TaskGraph.release_error
  · exact hkept (hrelease id) fun _ _ ↦ TaskGraph.release_error
  · exact hkept (hcomplete id) fun _ _ ↦ transact_eq_error
  · exact hkept (hdelete id) fun _ _ ↦ transact_eq_error
  · exact hkept (hmetadata id metadata) fun _ _ ↦ transact_eq_error
  · have hrebuild : TaskCall.run ⟨.rebuild, actor, now⟩ db = (.done, db) := by
      rw [TaskCall.run, TaskGraph.rebuild, hfaithful.rebuildProjection, answer]
    rw [hrebuild]
    exact hdb

namespace TaskCall

variable {call : TaskCall}

theorem faithful_run (call : TaskCall) (hdb : db.Faithful) : (call.run db).2.Faithful := by
  rcases call.settles hdb with ⟨heq, -⟩ | ⟨hwrites, -⟩
  · rwa [heq]
  · exact hwrites.faithful hdb

/-- A call that throws leaves the store as it was. -/
theorem run_failed (hdb : db.Faithful) {e : TaskError} (h : (call.run db).1 = .failed e) :
    (call.run db).2 = db := by
  rcases call.settles hdb with ⟨heq, -⟩ | ⟨-, hreturns⟩
  · exact heq
  · exact absurd h (hreturns e)

/-- The mark goes up by one with a task that is created, and else stays. -/
theorem nextId_run (call : TaskCall) (hdb : db.Faithful) :
    (call.run db).2.nextId = db.nextId ∧ (call.run db).1.createdId = none ∨
      (call.run db).2.nextId = db.nextId + 1 ∧ (call.run db).1.createdId = some db.nextId := by
  rcases call.settles hdb with ⟨heq, hnone⟩ | ⟨hwrites, -⟩
  · exact .inl ⟨by rw [heq], hnone⟩
  · generalize (call.run db).1.createdId = id at hwrites ⊢
    rcases hwrites with h | h
    · exact .inl ⟨h.nextId, rfl⟩
    · exact .inr ⟨h.nextId, rfl⟩

end TaskCall

theorem faithful_runAll (calls : List TaskCall) (hdb : db.Faithful) :
    (runAll calls db).Faithful := by
  induction calls generalizing db with
  | nil => exact hdb
  | cons call calls ih => exact ih (call.faithful_run hdb)

theorem nextId_le_runAll (calls : List TaskCall) (hdb : db.Faithful) :
    db.nextId ≤ (runAll calls db).nextId := by
  induction calls generalizing db with
  | nil => exact le_refl _
  | cons call calls ih =>
    have hle : db.nextId ≤ (call.run db).2.nextId := by
      rcases call.nextId_run hdb with ⟨h, -⟩ | ⟨h, -⟩ <;> omega
    exact le_trans hle (ih (call.faithful_run hdb))

/-- The call at a place of a run creates a task under an id. -/
def CreatesAt (calls : List TaskCall) (i : ℕ) (id : ℤ) : Prop :=
  ∃ call, calls[i]? = some call ∧
    (call.run (runAll (calls.take i) TaskDb.empty)).1.createdId = some id

/-- Between its creation and any later time of the run, the id stays below the mark. -/
theorem lt_nextId_of_createsAt {calls : List TaskCall} {i j : ℕ} {id : ℤ}
    (h : CreatesAt calls i id) (hij : i < j) :
    (runAll (calls.take i) TaskDb.empty).nextId = id ∧
      id < (runAll (calls.take j) TaskDb.empty).nextId := by
  obtain ⟨call, hcall, hid⟩ := h
  have hfaithful := faithful_runAll (calls.take i) faithful_empty
  have hsucc : calls.take (i + 1) = calls.take i ++ [call] := by
    rw [List.take_add_one, hcall, Option.toList_some]
  have hrest : calls.take j = calls.take (i + 1) ++ (calls.take j).drop (i + 1) := by
    have htake : calls.take (i + 1) = (calls.take j).take (i + 1) := by
      rw [List.take_take, min_eq_left hij]
    rw [htake, List.take_append_drop]
  rcases call.nextId_run hfaithful with ⟨-, hnone⟩ | ⟨hnext, hsome⟩
  · rw [hnone] at hid
    cases hid
  · cases hsome.symm.trans hid
    refine ⟨rfl, ?_⟩
    have hle := nextId_le_runAll ((calls.take j).drop (i + 1)) (call.faithful_run hfaithful)
    rw [hrest, runAll_append, hsucc, runAll_append]
    exact lt_of_lt_of_le (by rw [hnext]; omega) hle

/-- **The log stands for the store.** After any run, a rebuild changes nothing; an id that a task
was created under is below the mark ever after and no other task gets it; and a call that throws
changes nothing at all. -/
theorem rebuild_and_ids (calls : List TaskCall) :
    (runAll calls TaskDb.empty).rebuildProjection =
        (.ok (runAll calls TaskDb.empty).events.length, runAll calls TaskDb.empty) ∧
      (∀ i id, CreatesAt calls i id → id < (runAll calls TaskDb.empty).nextId ∧
        ∀ j id', CreatesAt calls j id' → j ≠ i → id' ≠ id) ∧
      ∀ call e, (TaskCall.run call (runAll calls TaskDb.empty)).1 = .failed e →
        (TaskCall.run call (runAll calls TaskDb.empty)).2 = runAll calls TaskDb.empty := by
  have hfaithful := faithful_runAll calls faithful_empty
  refine ⟨hfaithful.rebuildProjection, fun i id hi ↦ ⟨?_, fun j id' hj hij ↦ ?_⟩,
    fun call e h ↦ TaskCall.run_failed hfaithful h⟩
  · have hlength : i < calls.length := by
      obtain ⟨call, hcall, -⟩ := hi
      exact (List.getElem?_eq_some_iff.mp hcall).1
    have hlt := (lt_nextId_of_createsAt hi hlength).2
    rwa [List.take_length] at hlt
  · rcases lt_or_gt_of_ne hij with hlt | hlt
    · have hj' := (lt_nextId_of_createsAt hj hlt).2
      rw [(lt_nextId_of_createsAt hi (Nat.lt_succ_self i)).1] at hj'
      omega
    · have hi' := (lt_nextId_of_createsAt hi hlt).2
      rw [(lt_nextId_of_createsAt hj (Nat.lt_succ_self j)).1] at hi'
      omega

end QwenHarness.Tasks
