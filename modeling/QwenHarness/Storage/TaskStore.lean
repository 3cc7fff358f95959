import QwenHarness.Protocol.Domain
import QwenHarness.Table.Keyed
import QwenHarness.Tasks.Dependencies
import QwenHarness.Tasks.StateMachine

/-!
# The durable task store

An append-only log of task events, and the tables of tasks and of dependencies that are projected
from it. The two are written together: `emit` appends an event and projects it. A counter holds the
next id, and it only goes up.

What a text column holds is given by the value that is read from it. The live path projects the
event it has in hand. A rebuild projects what it reads from the log: the event went through text on
the way, field by field, and `readChange` puts it together again.

A transaction is a function that takes the tables as they are and returns them as they are to be, or
fails. `transact` keeps the tables as they were if it fails.
-/

namespace QwenHarness.Tasks

open Codec

/-! ## Errors -/

/-- What a call on the graph may throw. -/
inductive TaskError where
  /-- The input does not parse. -/
  | invalidInput
  | harness (origin category message : String)
  /-- The database refuses a statement. -/
  | database
deriving DecidableEq, Repr

/-! ## Events -/

/-- What happens to a task. -/
inductive TaskChange where
  | created (subject description activeForm : String) (status : TaskStatus)
      (metadata : List (String × Value)) (blockedBy : List ℤ)
  | claimed (owner : String)
  | released
  | statusChanged (status : TaskStatus)
  | deleted
  | metadataUpdated (metadata : List (String × Value))
  | dependencyAdded (blockerId blockedId : ℤ)
deriving Repr

inductive TaskEventType where
  | created
  | claimed
  | released
  | statusChanged
  | deleted
  | metadataUpdated
  | dependencyAdded
deriving DecidableEq, Repr

def TaskChange.type : TaskChange → TaskEventType
  | .created .. => .created
  | .claimed _ => .claimed
  | .released => .released
  | .statusChanged _ => .statusChanged
  | .deleted => .deleted
  | .metadataUpdated _ => .metadataUpdated
  | .dependencyAdded .. => .dependencyAdded

structure TaskEventInput where
  taskId : ℤ
  actor : Actor
  change : TaskChange
deriving Repr

/-- An event without its type, its task and its actor. -/
def TaskChange.payload : TaskChange → List (String × Value)
  | .created subject description activeForm status metadata blockedBy =>
    [("subject", .str subject), ("description", .str description), ("activeForm", .str activeForm),
      ("status", .str status.name), ("metadata", .obj metadata),
      ("blockedBy", .arr (blockedBy.map .int))]
  | .claimed owner => [("owner", .str owner)]
  | .released => []
  | .statusChanged status => [("status", .str status.name)]
  | .deleted => []
  | .metadataUpdated metadata => [("metadata", .obj metadata)]
  | .dependencyAdded blockerId blockedId =>
    [("blockerId", .int blockerId), ("blockedId", .int blockedId)]

/-- An entry of the log. -/
structure TaskEventRecord where
  seq : ℕ
  taskId : ℤ
  type : TaskEventType
  payload : List (String × Value)
  actor : Actor
  timestamp : ℤ
deriving Repr

/-! ### Reading an event back -/

def readText : Value → Option String
  | .str s => some s
  | _ => none

def readObject : Value → Option (List (String × Value))
  | .obj kvs => some kvs
  | _ => none

def readInt : Value → Option ℤ
  | .num (.fin q) => if q.den = 1 then some q.num else none
  | _ => none

def readInts : Value → Option (List ℤ)
  | .arr xs => xs.mapM readInt
  | _ => none

def readStatus (v : Value) : Option TaskStatus := (readText v).bind TaskStatus.ofName

/-- The event a log entry stands for. -/
def readChange (type : TaskEventType) (payload : List (String × Value)) : Option TaskChange :=
  match type with
  | .created => do
    let subject ← (payload.lookup "subject").bind readText
    let description ← (payload.lookup "description").bind readText
    let activeForm ← (payload.lookup "activeForm").bind readText
    let status ← (payload.lookup "status").bind readStatus
    let metadata ← (payload.lookup "metadata").bind readObject
    let blockedBy ← (payload.lookup "blockedBy").bind readInts
    some (.created subject description activeForm status metadata blockedBy)
  | .claimed => do
    let owner ← (payload.lookup "owner").bind readText
    some (.claimed owner)
  | .released => some .released
  | .statusChanged => do
    let status ← (payload.lookup "status").bind readStatus
    some (.statusChanged status)
  | .deleted => some .deleted
  | .metadataUpdated => do
    let metadata ← (payload.lookup "metadata").bind readObject
    some (.metadataUpdated metadata)
  | .dependencyAdded => do
    let blockerId ← (payload.lookup "blockerId").bind readInt
    let blockedId ← (payload.lookup "blockedId").bind readInt
    some (.dependencyAdded blockerId blockedId)

def recordToInput (record : TaskEventRecord) : Option TaskEventInput :=
  (readChange record.type record.payload).map fun change ↦
    { taskId := record.taskId, actor := record.actor, change }

/-! ## The tables -/

/-- A task as it is stored. -/
structure StoredTask where
  id : ℤ
  subject : String
  description : String
  activeForm : String
  owner : Option String
  status : TaskStatus
  metadata : List (String × Value)
  /-- Goes up with every change. -/
  version : ℕ
  createdAt : ℤ
  updatedAt : ℤ
  createdBy : Actor
deriving Repr

/-- What is projected from the log. -/
@[ext] structure Projection where
  nodes : Keyed StoredTask.id
  deps : Keyed DepEdge.pair

def Projection.empty : Projection := ⟨Keyed.empty, Keyed.empty⟩

structure TaskDb where
  /-- The id the next task gets. -/
  nextId : ℤ
  /-- The log. -/
  events : List TaskEventRecord
  projection : Projection

def TaskDb.empty : TaskDb := ⟨1, [], Projection.empty⟩

/-! ## Projecting an event -/

/-- `INSERT OR IGNORE INTO task_deps`. -/
def addDep (deps : Keyed DepEdge.pair) (blockerId blockedId : ℤ) : Keyed DepEdge.pair :=
  (deps.insert ⟨blockerId, blockedId⟩).getD deps

/-- What every update of a task does besides. -/
def StoredTask.touch (now : ℤ) (task : StoredTask) : StoredTask :=
  { task with version := task.version + 1, updatedAt := now }

/-- The update an event makes to its task. -/
def TaskChange.update (now : ℤ) : TaskChange → StoredTask → StoredTask
  | .created .., task => task
  | .claimed owner, task => { task.touch now with owner := some owner, status := .claimed }
  | .released, task => { task.touch now with owner := none, status := .released }
  | .statusChanged status, task => { task.touch now with status }
  | .deleted, task => { task.touch now with owner := none, status := .deleted }
  | .metadataUpdated metadata, task =>
    { task.touch now with metadata := Value.viaJsonEntries metadata }
  | .dependencyAdded .., task => task.touch now

theorem TaskChange.id_update (now : ℤ) (change : TaskChange) (task : StoredTask) :
    (change.update now task).id = task.id := by
  cases change <;> rfl

/-- The row a new task gets. -/
def newNode (now : ℤ) (taskId : ℤ) (actor : Actor) (subject description activeForm : String)
    (status : TaskStatus) (metadata : List (String × Value)) : StoredTask where
  id := taskId
  subject := subject
  description := description
  activeForm := activeForm
  owner := none
  status := status
  metadata := Value.viaJsonEntries metadata
  version := 1
  createdAt := now
  updatedAt := now
  createdBy := actor

/-- Apply one event to the tables. -/
def projectEvent (now : ℤ) (event : TaskEventInput) (p : Projection) : Option Projection :=
  match event.change with
  | .created subject description activeForm status metadata blockedBy =>
    (p.nodes.insert (newNode now event.taskId event.actor subject description activeForm status
      metadata)).map fun nodes ↦
        { nodes, deps := blockedBy.foldl (fun deps b ↦ addDep deps b event.taskId) p.deps }
  | .dependencyAdded blockerId blockedId =>
    some
      { nodes := p.nodes.modify blockedId (event.change.update now) (event.change.id_update now)
        deps := addDep p.deps blockerId blockedId }
  | _ =>
    some { p with
      nodes := p.nodes.modify event.taskId (event.change.update now) (event.change.id_update now) }

/-! ## Reading -/

namespace TaskDb

variable (db : TaskDb)

def getTask (id : ℤ) : Option StoredTask := db.projection.nodes.find? id

/-- In the order of their ids. -/
def listTasks (includeDeleted : Bool) : List StoredTask :=
  (db.projection.nodes.rows.filter fun task ↦
    includeDeleted || decide (task.status ≠ .deleted)).insertionSort (·.id ≤ ·.id)

/-- `ORDER BY blocker_id, blocked_id`. -/
def depBefore (e e' : DepEdge) : Prop :=
  e.blockerId < e'.blockerId ∨ e.blockerId = e'.blockerId ∧ e.blockedId ≤ e'.blockedId

instance : DecidableRel depBefore := fun _ _ ↦ inferInstanceAs (Decidable (_ ∨ _))

def listDeps : List DepEdge := db.projection.deps.rows.insertionSort depBefore

/-! ## Writing -/

def allocateId : ℤ × TaskDb := (db.nextId, { db with nextId := db.nextId + 1 })

/-- `applyEvent`: append the event and project it. The clock is read once for each event. The entry
that is returned holds the event as it was handed in. -/
def emit (now : ℕ → ℤ) (event : TaskEventInput) : Except TaskError (TaskEventRecord × TaskDb) :=
  let seq := db.events.length + 1
  let record : TaskEventRecord :=
    { seq, taskId := event.taskId, type := event.change.type, payload := event.change.payload
      actor := event.actor, timestamp := now seq }
  match projectEvent (now seq) event db.projection with
  | none => .error .database
  | some projection =>
    .ok (record, { db with
      events := db.events ++ [{ record with payload := Value.viaJsonEntries record.payload }]
      projection })

/-- Either all of it is done or none. -/
def transact {α : Type} (mutator : TaskDb → Except TaskError (α × TaskDb)) :
    Except TaskError α × TaskDb :=
  match mutator db with
  | .ok (a, db') => (.ok a, db')
  | .error e => (.error e, db)

/-- Project a log entry. -/
def projectRecord (record : TaskEventRecord) (p : Projection) : Option Projection :=
  (recordToInput record).bind fun event ↦ projectEvent record.timestamp event p

/-- Project the log entries one after the other. -/
def replay : List TaskEventRecord → Projection → Option Projection
  | [], p => some p
  | record :: records, p => (projectRecord record p).bind (replay records)

/-- Drop the tables and project the log again. The counter is not touched. -/
def rebuildProjection : Except TaskError ℕ × TaskDb :=
  db.transact fun db ↦
    match replay db.events Projection.empty with
    | none => .error .database
    | some projection => .ok (db.events.length, { db with projection })

end TaskDb

end QwenHarness.Tasks

/-!
## The task log and what is projected from it

What was written to the log is read back as the event that was written, but for the free metadata,
which comes back as text spells it. That is also how the live path stores it. So the two routes to
the tables agree on every event, and the tables are at all times what a replay of the log gives.

`Emits` is a sequence of events, each appended and projected. Everything the operations of the graph
do to the store is one of these, after a fresh id at most.
-/

namespace QwenHarness.Tasks

open Codec

/-! ## The two routes agree -/

theorem readInt_int (n : ℤ) : readInt (.int n) = some n := by
  simp [readInt, Value.int]

theorem readInts_ints (ns : List ℤ) : readInts (.arr (ns.map .int)) = some ns := by
  rw [readInts]
  induction ns with
  | nil => rfl
  | cons n ns ih => rw [List.map_cons, List.mapM_cons, readInt_int, ih]; rfl

theorem viaJsonList_ints (ns : List ℤ) :
    Value.viaJsonList (ns.map .int) = ns.map .int := by
  induction ns with
  | nil => rw [List.map_nil, Value.viaJsonList]
  | cons n ns ih => rw [List.map_cons, Value.viaJsonList, Value.viaJson_int, ih]

theorem readStatus_name (status : TaskStatus) : readStatus (.str status.name) = some status := by
  rw [readStatus, readText, Option.bind_some, TaskStatus.ofName_name]

/-- The event as it comes back from text. -/
def TaskChange.viaText : TaskChange → TaskChange
  | .created subject description activeForm status metadata blockedBy =>
    .created subject description activeForm status (Value.viaJsonEntries metadata) blockedBy
  | .metadataUpdated metadata => .metadataUpdated (Value.viaJsonEntries metadata)
  | change => change

theorem readChange_payload (change : TaskChange) :
    readChange change.type (Value.viaJsonEntries change.payload) = some change.viaText := by
  cases change with
  | created subject description activeForm status metadata blockedBy =>
    simp [TaskChange.payload, TaskChange.type, readChange, TaskChange.viaText, viaJsonList_ints,
      List.lookup_cons, readStatus_name, readInts_ints, readText, readObject]
  | claimed owner => simp [TaskChange.payload, TaskChange.type, readChange, readText,
      TaskChange.viaText]
  | released => rfl
  | statusChanged status => simp [TaskChange.payload, TaskChange.type, readChange,
      readStatus_name, TaskChange.viaText]
  | deleted => rfl
  | metadataUpdated metadata => simp [TaskChange.payload, TaskChange.type, readChange, readObject,
      TaskChange.viaText]
  | dependencyAdded blockerId blockedId => simp [TaskChange.payload, TaskChange.type, readChange,
      List.lookup_cons, readInt_int, TaskChange.viaText]

/-- To project an event, it does not matter whether it went through text before. -/
theorem projectEvent_viaText (now : ℤ) (event : TaskEventInput) (p : Projection) :
    projectEvent now { event with change := event.change.viaText } p =
      projectEvent now event p := by
  obtain ⟨taskId, actor, change⟩ := event
  cases change with
  | created subject description activeForm status metadata blockedBy =>
    have hnode : newNode now taskId actor subject description activeForm status
        (Value.viaJsonEntries metadata) =
        newNode now taskId actor subject description activeForm status metadata := by
      rw [newNode, newNode, Value.viaJsonEntries_viaJsonEntries]
    simp only [TaskChange.viaText, projectEvent, hnode]
  | metadataUpdated metadata =>
    have hupdate : (TaskChange.metadataUpdated (Value.viaJsonEntries metadata)).update now =
        (TaskChange.metadataUpdated metadata).update now := by
      funext task
      rw [TaskChange.update, TaskChange.update, Value.viaJsonEntries_viaJsonEntries]
    simp only [TaskChange.viaText, projectEvent, hupdate]
  | _ => rfl

/-! ## Emitting -/

/-- The entry that goes into the log. -/
def logged (seq : ℕ) (timestamp : ℤ) (event : TaskEventInput) : TaskEventRecord where
  seq := seq
  taskId := event.taskId
  type := event.change.type
  payload := Value.viaJsonEntries event.change.payload
  actor := event.actor
  timestamp := timestamp

namespace TaskDb

variable {now : ℕ → ℤ} {event : TaskEventInput} {db db' db'' : TaskDb} {record : TaskEventRecord}

/-- A log entry projects as the event it was made of. -/
theorem projectRecord_logged (seq : ℕ) (timestamp : ℤ) (event : TaskEventInput) (p : Projection) :
    projectRecord (logged seq timestamp event) p = projectEvent timestamp event p := by
  rw [projectRecord, recordToInput, logged, readChange_payload, Option.map_some, Option.bind_some]
  exact projectEvent_viaText timestamp event p

/-- The tables after one event. -/
theorem emit_eq_ok_iff :
    db.emit now event = .ok (record, db') ↔
      ∃ p, projectEvent (now (db.events.length + 1)) event db.projection = some p ∧
        record = { logged (db.events.length + 1) (now (db.events.length + 1)) event with
          payload := event.change.payload } ∧
        db' = ⟨db.nextId, db.events ++
          [logged (db.events.length + 1) (now (db.events.length + 1)) event], p⟩ := by
  rw [emit]
  cases hp : projectEvent (now (db.events.length + 1)) event db.projection with
  | none => simp
  | some p =>
    simp only [Except.ok.injEq, Prod.mk.injEq, Option.some.injEq, exists_eq_left']
    exact and_congr ⟨Eq.symm, Eq.symm⟩ ⟨Eq.symm, Eq.symm⟩

/-- Events appended and projected one after the other. -/
inductive Emits (now : ℕ → ℤ) : TaskDb → List TaskEventInput → TaskDb → Prop
  | nil {db : TaskDb} : Emits now db [] db
  | cons {db db' db'' : TaskDb} {event : TaskEventInput} {events : List TaskEventInput}
      {record : TaskEventRecord} (h : db.emit now event = .ok (record, db'))
      (hs : Emits now db' events db'') : Emits now db (event :: events) db''

theorem Emits.single (h : db.emit now event = .ok (record, db')) : Emits now db [event] db' :=
  .cons h .nil

theorem Emits.append {events events' : List TaskEventInput} (h : Emits now db events db')
    (h' : Emits now db' events' db'') : Emits now db (events ++ events') db'' := by
  induction h with
  | nil => exact h'
  | cons h _ ih => exact .cons h (ih h')

theorem Emits.nextId {events : List TaskEventInput} (h : Emits now db events db') :
    db'.nextId = db.nextId := by
  induction h with
  | nil => rfl
  | cons h _ ih =>
    obtain ⟨p, -, -, rfl⟩ := emit_eq_ok_iff.mp h
    exact ih

/-! ## The log stands for the tables -/

/-- The tables are what a replay of the log gives. -/
def Faithful (db : TaskDb) : Prop := replay db.events Projection.empty = some db.projection

theorem faithful_empty : empty.Faithful := rfl

theorem replay_append (records records' : List TaskEventRecord) (p : Projection) :
    replay (records ++ records') p = (replay records p).bind (replay records') := by
  induction records generalizing p with
  | nil => rfl
  | cons record records ih =>
    rw [List.cons_append, replay, replay, Option.bind_assoc]
    exact congrArg ((projectRecord record p).bind ·) (funext ih)

/-- **One event** keeps the log and the tables in agreement. -/
theorem Faithful.emit (hdb : db.Faithful) (h : db.emit now event = .ok (record, db')) :
    db'.Faithful := by
  obtain ⟨p, hp, -, rfl⟩ := emit_eq_ok_iff.mp h
  rw [Faithful, replay_append, hdb, Option.bind_some, replay, projectRecord_logged, hp,
    Option.bind_some, replay]

theorem Faithful.emits {events : List TaskEventInput} (hdb : db.Faithful)
    (h : Emits now db events db') : db'.Faithful := by
  induction h with
  | nil => exact hdb
  | cons h _ ih => exact ih (hdb.emit h)

/-- A rebuild of tables that agree with the log changes nothing. -/
theorem Faithful.rebuildProjection (hdb : db.Faithful) :
    db.rebuildProjection = (.ok db.events.length, db) := by
  rw [TaskDb.rebuildProjection, transact, hdb]

/-! ## Transactions -/

variable {α : Type} {mutator : TaskDb → Except TaskError (α × TaskDb)}

theorem transact_eq_ok_iff {a : α} :
    db.transact mutator = (.ok a, db') ↔ mutator db = .ok (a, db') := by
  rw [transact]
  cases hm : mutator db with
  | error e => simp
  | ok r =>
    obtain ⟨a', db''⟩ := r
    simp

/-- **A transaction that fails** leaves everything as it was. -/
theorem transact_eq_error {e : TaskError} (h : db.transact mutator = (.error e, db')) :
    db' = db := by
  rw [transact] at h
  cases hm : mutator db with
  | error e' =>
    rw [hm] at h
    exact (Prod.mk.inj h).2.symm
  | ok r =>
    rw [hm] at h
    cases (Prod.mk.inj h).1

end TaskDb

end QwenHarness.Tasks
