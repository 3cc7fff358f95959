import QwenHarness.Tasks.TaskGraph
import QwenHarness.Teams.Protocol

/-!
# Teammates

A teammate works in steps. A step that is not told to stop claims the first task it can get, starts
it and works on it. The call runs through up to there, so nothing comes between; then it waits for
the work, and anything may happen meanwhile. When the work returns, the step completes or releases
the task by its id.

The team is the task graph that its members share, their own states, and the steps that wait for
their work.
-/

namespace QwenHarness.Teams

open Tasks

/-! ## The inbox -/

structure InboxEntry where
  id : String
  seq : ℕ
  sender : String
  message : ProtocolMessage
  deliveredAt : ℤ
deriving DecidableEq, Repr

structure Inbox where
  entries : List InboxEntry
  seen : List String
  seq : ℕ

namespace Inbox

def empty : Inbox := ⟨[], [], 0⟩

variable (inbox : Inbox)

/-- A message that was delivered before is dropped. -/
def deliver (id sender : String) (message : ProtocolMessage) (now : ℤ) : Bool × Inbox :=
  if id ∈ inbox.seen then (false, inbox)
  else
    (true,
      { entries := inbox.entries ++ [⟨id, inbox.seq, sender, message, now⟩]
        seen := id :: inbox.seen
        seq := inbox.seq + 1 })

def drain : List InboxEntry × Inbox := (inbox.entries, { inbox with entries := [] })

end Inbox

/-! ## One teammate -/

inductive TeammatePhase where
  | work
  | idle
  | shuttingDown
  | stopped
deriving DecidableEq, Repr

/-- What a teammate is set up with. -/
structure TeammateContext where
  memberId : String
  actor : Actor

structure Teammate where
  phase : TeammatePhase
  shutdownRequested : Bool
  inbox : Inbox

def Teammate.fresh : Teammate := ⟨.idle, false, Inbox.empty⟩

/-- Does the message ask to shut down? -/
def asksShutdown (entry : InboxEntry) : Bool :=
  decide (entry.message.type = .shutdownRequest ∨ entry.message.type = .termination)

def Teammate.handleMessages (mate : Teammate) (messages : List InboxEntry) : Teammate :=
  { mate with shutdownRequested := mate.shutdownRequested || messages.any asksShutdown }

/-- The tasks that are tried, in order. -/
def claimable (db : TaskDb) : List Task :=
  (TaskGraph.list db false).filter fun task ↦
    decide (task.owner = none ∧ (task.status = .pending ∨ task.status = .released))

/-- A step that waits for its work. The claim is the place in the log of the claim the work was
started under; the code keeps only the id of the task. -/
structure Work (ι : Type) where
  mate : ι
  taskId : ℤ
  claim : ℕ
deriving DecidableEq, Repr

/-- Where a step is when its call returns, or waits. -/
inductive StepResult where
  | stopped
  | idle
  | working (taskId : ℤ) (claim : ℕ)
  | threw (error : TaskError)

section Step

variable (now : ℕ → ℤ) (ctx : TeammateContext)

/-- Try the tasks one after the other. A task that somebody else has got is passed over. -/
def claimFirst (mate : Teammate) : List Task → TaskDb → StepResult × Teammate × TaskDb
  | [], db => (.idle, { mate with phase := .idle }, db)
  | task :: tasks, db =>
    match TaskGraph.claim now ctx.actor db task.id ctx.memberId with
    | (.error e, db) => (.threw e, mate, db)
    | (.ok (.lost _, _), db) => claimFirst mate tasks db
    | (.ok (.won _, _), db') =>
      match TaskGraph.start now ctx.actor db' task.id with
      | (.error e, db'') => (.threw e, { mate with phase := .work }, db'')
      | (.ok _, db'') =>
        (.working task.id (db.events.length + 1), { mate with phase := .work }, db'')

/-- A step up to its work. A member that stopped does nothing any more. -/
def beginStep (aborted : Bool) (mate : Teammate) (db : TaskDb) :
    StepResult × Teammate × TaskDb :=
  if mate.phase = .stopped then (.stopped, mate, db)
  else
    let (messages, inbox) := mate.inbox.drain
    let mate := { mate with inbox }.handleMessages messages
    if mate.shutdownRequested || aborted then (.stopped, { mate with phase := .stopped }, db)
    else claimFirst now ctx mate (claimable db) db

/-- How a work may end. -/
inductive Outcome where
  | ok
  | notOk
  | threw
deriving DecidableEq, Repr

/-- Whether a call changed the task, and the store after it. -/
def changed {α : Type} : Except TaskError α × TaskDb → Bool × TaskDb
  | (.ok _, db) => (true, db)
  | (.error _, db) => (false, db)

/-- The rest of a step, after its work. -/
def endStep (outcome : Outcome) (taskId : ℤ) (db : TaskDb) : Bool × TaskDb :=
  match outcome with
  | .ok => changed (TaskGraph.complete now ctx.actor db taskId)
  | .notOk => changed (TaskGraph.release now ctx.actor db taskId)
  | .threw => (false, db)

end Step

/-! ## Recovery -/

/-- Is the task in the hands of the member? -/
def isHeldBy (lostMemberId : String) (task : Task) : Bool :=
  decide (task.owner = some lostMemberId ∧ (task.status = .claimed ∨ task.status = .inProgress))

def releaseAll (now : ℕ → ℤ) (actor : Actor) : List Task → TaskDb → TaskDb
  | [], db => db
  | task :: tasks, db =>
    match TaskGraph.release now actor db task.id with
    | (.ok _, db) => releaseAll now actor tasks db
    | (.error _, db) => db

/-- Release the tasks of a member that was lost. -/
def reclaimTasks (now : ℕ → ℤ) (actor : Actor) (lostMemberId : String) (db : TaskDb) : TaskDb :=
  releaseAll now actor ((TaskGraph.list db false).filter (isHeldBy lostMemberId)) db

/-! ## The team -/

structure Team (ι : Type) where
  db : TaskDb
  mates : ι → Teammate
  /-- The steps that wait for their work. -/
  working : List (Work ι)

inductive Move (ι : Type) where
  | deliver (mate : ι) (id sender : String) (message : ProtocolMessage) (now : ℤ)
  | beginStep (mate : ι) (aborted : Bool) (now : ℕ → ℤ)
  /-- The work of a step that waits has ended. -/
  | endStep (step : ℕ) (outcome : Outcome) (now : ℕ → ℤ)
  | reclaim (lostMemberId : String) (actor : Actor) (now : ℕ → ℤ)

section Runs

variable {ι : Type} [DecidableEq ι] (ctx : ι → TeammateContext)

/-- The steps that wait after one was begun. -/
def StepResult.waiting (i : ι) : StepResult → List (Work ι)
  | .working taskId claim => [⟨i, taskId, claim⟩]
  | _ => []

def Team.move (team : Team ι) : Move ι → Team ι
  | .deliver i id sender message now =>
    let mate := team.mates i
    { team with
      mates := Function.update team.mates i
        { mate with inbox := (mate.inbox.deliver id sender message now).2 } }
  | .beginStep i aborted now =>
    let (result, mate, db) := beginStep now (ctx i) aborted (team.mates i) team.db
    { db, mates := Function.update team.mates i mate, working := team.working ++ result.waiting i }
  | .endStep k outcome now =>
    match team.working[k]? with
    | none => team
    | some w =>
      { team with
        db := (endStep now (ctx w.mate) outcome w.taskId team.db).2
        working := team.working.eraseIdx k }
  | .reclaim lostMemberId actor now =>
    { team with db := reclaimTasks now actor lostMemberId team.db }

/-- The team before any step, on a graph. -/
def Team.on (db : TaskDb) : Team ι := ⟨db, fun _ ↦ .fresh, []⟩

end Runs

end QwenHarness.Teams
