import QwenHarness.Storage.TaskStore

/-!
# The task graph

The rules of the task system: which change is legal when. Every operation is one transaction, which
reads, decides and writes. What it throws leaves the store as it was. The events it returns besides
its result are what the listeners are told after the commit.
-/

namespace QwenHarness.Tasks

open Codec

/-! ## Tasks as the graph shows them -/

structure Task where
  id : ℤ
  subject : String
  description : String
  activeForm : String
  owner : Option String
  status : TaskStatus
  /-- The tasks that wait on this one. -/
  blocks : List ℤ
  /-- The tasks this one waits on. -/
  blockedBy : List ℤ
  metadata : List (String × Value)
  createdAt : ℤ
  updatedAt : ℤ
  createdBy : Actor
deriving Repr

def toTask (stored : StoredTask) (edges : List DepEdge) : Task where
  id := stored.id
  subject := stored.subject
  description := stored.description
  activeForm := stored.activeForm
  owner := stored.owner
  status := stored.status
  blocks := blocksOf edges stored.id
  blockedBy := blockersOf edges stored.id
  metadata := stored.metadata
  createdAt := stored.createdAt
  updatedAt := stored.updatedAt
  createdBy := stored.createdBy

/-! ## Errors -/

def taskError (origin category message : String) : TaskError := .harness origin category message

def missingReference (id : ℤ) : TaskError :=
  taskError "user" "tasks.missing_reference" ("task " ++ toString id ++ " does not exist")

def illegalTransition (src tgt : TaskStatus) : TaskError :=
  taskError "user" "tasks.illegal_transition"
    ("illegal task transition: " ++ src.name ++ " -> " ++ tgt.name)

def cycleRejected (edges : List DepEdge) : TaskError :=
  taskError "user" "tasks.cycle" ("dependency would create a cycle among tasks: " ++
    ", ".intercalate (edges.map fun e ↦ toString e.blockerId ++ "->" ++ toString e.blockedId))

def invariantError (message : String) : TaskError := taskError "internal" "tasks.invariant" message

/-! ## Input -/

structure CreateTaskInput where
  subject : String
  description : Option String
  activeForm : String
  /-- Existing tasks that must complete before this one begins. -/
  blockedBy : Option (List ℤ)
  metadata : Option (List (String × Value))
deriving Repr

/-- A parsed input, its defaults filled in. -/
structure ParsedTaskInput where
  subject : String
  description : String
  activeForm : String
  blockedBy : List ℤ
  metadata : List (String × Value)

def CreateTaskInput.parse (input : CreateTaskInput) : Option ParsedTaskInput :=
  let blockedBy := input.blockedBy.getD []
  if 1 ≤ utf16Length input.subject ∧ 1 ≤ utf16Length input.activeForm ∧
      ∀ b ∈ blockedBy, isSafeInt b = true ∧ 0 ≤ b then
    some
      { subject := input.subject
        description := input.description.getD ""
        activeForm := input.activeForm
        blockedBy
        metadata := input.metadata.getD [] }
  else none

/-- `OwnerSchema`. -/
def isOwnerId (owner : String) : Bool := decide (1 ≤ utf16Length owner ∧ utf16Length owner ≤ 200)

/-! ## The operations -/

inductive ClaimResult where
  | won (task : Task)
  | lost (reason : String)
deriving Repr

structure CompleteResult where
  task : Task
  newlyUnblocked : List Task

/-- `isSatisfied(tx.getTask(b)?.status ?? '')`. -/
def TaskDb.isDone (db : TaskDb) (b : ℤ) : Bool := (db.getTask b).any fun task ↦ isSatisfied task.status

def TaskDb.isBlocked (db : TaskDb) (id : ℤ) : Bool :=
  (db.getTask id).any fun task ↦ decide (task.status = .blocked)

/-- Go on if it holds, throw otherwise. -/
def ensure (p : Prop) [Decidable p] (error : TaskError) : Except TaskError Unit :=
  if p then pure () else throw error

/-- The value that is there, or an error. -/
def require {α : Type} (a : Option α) (error : TaskError) : Except TaskError α :=
  match a with
  | some a => pure a
  | none => throw error

namespace TaskGraph

variable (now : ℕ → ℤ) (actor : Actor) (db : TaskDb)

def get (id : ℤ) : Option Task := (db.getTask id).map fun stored ↦ toTask stored db.listDeps

def list (includeDeleted : Bool) : List Task :=
  (db.listTasks includeDeleted).map fun stored ↦ toTask stored db.listDeps

def readback (id : ℤ) (db : TaskDb) : Except TaskError Task := do
  let stored ← require (db.getTask id)
    (invariantError ("task " ++ toString id ++ " vanished mid-transaction"))
  pure (toTask stored db.listDeps)

/-- Emit a status change. Its legality is checked by the caller. -/
def transition (id : ℤ) (status : TaskStatus) (db : TaskDb) :
    Except TaskError (TaskEventRecord × TaskDb) :=
  db.emit now ⟨id, actor, .statusChanged status⟩

/-- A task that exists and is not deleted. -/
def reference (id : ℤ) (db : TaskDb) : Except TaskError StoredTask := do
  let stored ← require (db.getTask id) (missingReference id)
  ensure (stored.status ≠ .deleted) (missingReference id)
  pure stored

/-- The first blocker that is missing is an error. -/
def checkReferences (db : TaskDb) : List ℤ → Except TaskError Unit
  | [] => pure ()
  | b :: bs => do
    let _ ← reference b db
    checkReferences db bs

/-- Create a task. Every blocker must exist, and the task waits unless all of them are done with. -/
def create (input : CreateTaskInput) : Except TaskError (Task × List TaskEventRecord) × TaskDb :=
  match input.parse with
  | none => (.error .invalidInput, db)
  | some parsed =>
    let blockedBy := distinct parsed.blockedBy
    db.transact fun db ↦ do
      checkReferences db blockedBy
      let id := db.allocateId.1
      let db := db.allocateId.2
      -- The check is made against the edges there were, one blocker at a time.
      ensure ((blockedBy.any fun b ↦ wouldCreateCycle db.listDeps b id) = false)
        (cycleRejected (db.listDeps ++ blockedBy.map fun b ↦ ⟨b, id⟩))
      let status : TaskStatus :=
        if blockedBy = [] ∨ (blockedBy.all fun b ↦ db.isDone b) = true then .pending else .blocked
      let (record, db) ← db.emit now ⟨id, actor, .created parsed.subject parsed.description
        parsed.activeForm status parsed.metadata blockedBy⟩
      let stored ← require (db.getTask id)
        (invariantError "created task is missing from its own projection")
      pure ((toTask stored db.listDeps, [record]), db)

/-- A task without an owner that has to wait now is blocked. -/
def reblock (blocker blocked : StoredTask) (db : TaskDb) :
    Except TaskError (List TaskEventRecord × TaskDb) :=
  if (blocked.status = .pending ∨ blocked.status = .released) ∧
      isSatisfied blocker.status = false then do
    let (record, db) ← transition now actor blocked.id .blocked db
    pure ([record], db)
  else pure ([], db)

/-- Add a dependency between two tasks. -/
def addDependency (blockerId blockedId : ℤ) :
    Except TaskError (Task × List TaskEventRecord) × TaskDb :=
  db.transact fun db ↦ do
    let blocker ← reference blockerId db
    let blocked ← reference blockedId db
    ensure (wouldCreateCycle db.listDeps blockerId blockedId = false)
      (cycleRejected (db.listDeps ++ [⟨blockerId, blockedId⟩]))
    let (record, db) ← db.emit now ⟨blockedId, actor, .dependencyAdded blockerId blockedId⟩
    let (records, db) ← reblock now actor blocker blocked db
    let stored ← require (db.getTask blockedId)
      (invariantError "task vanished during dependency add")
    pure ((toTask stored db.listDeps, record :: records), db)

/-- Claim a task, if it is still without an owner and can be picked up. To lose it is a result. -/
def claim (id : ℤ) (owner : String) :
    Except TaskError (ClaimResult × List TaskEventRecord) × TaskDb :=
  if isOwnerId owner = false then (.error .invalidInput, db)
  else
    db.transact fun db ↦
      match db.getTask id with
      | none => pure ((.lost ("task " ++ toString id ++ " does not exist"), []), db)
      | some stored =>
        match stored.owner with
        | some other =>
          pure ((.lost ("task " ++ toString id ++ " is already owned by " ++ other), []), db)
        | none =>
          if isClaimable stored.status = false then
            pure ((.lost ("task " ++ toString id ++ " is " ++ stored.status.name ++
              ", not claimable"), []), db)
          else do
            let (record, db) ← db.emit now ⟨id, actor, .claimed owner⟩
            let next ← require (db.getTask id) (invariantError "claimed task vanished")
            pure ((.won (toTask next db.listDeps), [record]), db)

/-- A change of status, checked against the state machine and against the guard. -/
def simpleTransition (id : ℤ) (status : TaskStatus) (guard : TaskDb → Except TaskError Unit) :
    Except TaskError (Task × List TaskEventRecord) × TaskDb :=
  db.transact fun db ↦ do
    let stored ← require (db.getTask id) (missingReference id)
    ensure (canTransition stored.status status = true) (illegalTransition stored.status status)
    guard db
    let (record, db) ← transition now actor id status db
    let task ← readback id db
    pure ((task, [record]), db)

/-- Begin work. Rejected while a blocker is still open. -/
def start (id : ℤ) : Except TaskError (Task × List TaskEventRecord) × TaskDb :=
  simpleTransition now actor db id .inProgress fun db ↦
    ensure (allBlockersCompleted db.listDeps id db.isDone = true)
      (taskError "user" "tasks.blocked"
        ("task " ++ toString id ++ " cannot start: dependencies incomplete"))

/-- Return an owned task to the pool. -/
def release (id : ℤ) : Except TaskError (Task × List TaskEventRecord) × TaskDb :=
  db.transact fun db ↦ do
    let stored ← require (db.getTask id) (missingReference id)
    ensure (isOwned stored.status = true) (illegalTransition stored.status .released)
    let (record, db) ← db.emit now ⟨id, actor, .released⟩
    let task ← readback id db
    pure ((task, [record]), db)

/-- A member that was lost: its task goes back to the pool. -/
def recoverOwnerLoss (id : ℤ) : Except TaskError (Task × List TaskEventRecord) × TaskDb :=
  release now actor db id

/-- Flip tasks to pending, one after the other. -/
def flipAll : List ℤ → TaskDb → Except TaskError ((List Task × List TaskEventRecord) × TaskDb)
  | [], db => pure (([], []), db)
  | id :: ids, db => do
    let (record, db) ← transition now actor id .pending db
    let task ← readback id db
    let ((tasks, records), db) ← flipAll ids db
    pure ((task :: tasks, record :: records), db)

/-- After `id` is done with: every task that can run now is pending. -/
def unblockDownstream (id : ℤ) (db : TaskDb) :
    Except TaskError ((List Task × List TaskEventRecord) × TaskDb) :=
  flipAll now actor (newlyUnblocked db.listDeps id db.isBlocked db.isDone) db

/-- Complete a task, and tell what that unblocked. -/
def complete (id : ℤ) : Except TaskError (CompleteResult × List TaskEventRecord) × TaskDb :=
  db.transact fun db ↦ do
    let stored ← require (db.getTask id) (missingReference id)
    ensure (canTransition stored.status .completed = true)
      (illegalTransition stored.status .completed)
    let (record, db) ← transition now actor id .completed db
    let ((unblocked, records), db) ← unblockDownstream now actor id db
    let task ← readback id db
    pure ((⟨task, unblocked⟩, record :: records), db)

/-- Delete a task. The row is kept, and its id with it. -/
def delete (id : ℤ) : Except TaskError (CompleteResult × List TaskEventRecord) × TaskDb :=
  db.transact fun db ↦ do
    let stored ← require (db.getTask id) (missingReference id)
    ensure (stored.status ≠ .deleted) (illegalTransition .deleted .deleted)
    let (record, db) ← db.emit now ⟨id, actor, .deleted⟩
    let ((unblocked, records), db) ← unblockDownstream now actor id db
    let task ← readback id db
    pure ((⟨task, unblocked⟩, record :: records), db)

def setMetadata (id : ℤ) (metadata : List (String × Value)) :
    Except TaskError (Task × List TaskEventRecord) × TaskDb :=
  db.transact fun db ↦ do
    let stored ← require (db.getTask id) (missingReference id)
    ensure (stored.status ≠ .deleted) (illegalTransition .deleted .deleted)
    let (record, db) ← db.emit now ⟨id, actor, .metadataUpdated metadata⟩
    let task ← readback id db
    pure ((task, [record]), db)

def rebuild : Except TaskError ℕ × TaskDb := db.rebuildProjection

end TaskGraph

end QwenHarness.Tasks
