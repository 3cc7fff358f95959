import Mathlib.Data.List.Sort
import QwenHarness.Protocol.Events
import QwenHarness.Storage.Redaction
import QwenHarness.Table.Keyed
import QwenHarness.Table.Newest

/-!
# The event store

An append-only log of events and four projections of it: threads, turns, items and the side-effect
ledger. An event and every projection update it implies commit in one transaction, which is
assumed atomic: `transaction` keeps the state its body reached, or the one it started from.

Tables are lists of rows in insertion order under their primary key. An identifier that is null
matches no row, and a `NOT NULL` column refuses it.
-/

namespace QwenHarness

open Codec

/-! ## Rows -/

/-- A row of `events`. The payload column is text; here it is the value that text denotes. -/
structure EventRow where
  id : String
  schemaVersion : ℤ
  threadId : String
  seq : ℤ
  timestamp : ℤ
  turnId : Option String
  itemId : Option String
  actorKind : String
  actorId : String
  correlationId : String
  causationId : Option String
  permissionProfile : String
  payloadType : String
  payload : Value
deriving Repr

structure ThreadRow where
  id : String
  name : Option String
  createdAt : ℤ
  updatedAt : ℤ
  canonicalRepo : Option String
  cwd : String
  permissionProfile : PermissionProfile
  archived : Bool
  forkedFromThread : Option String
  forkedFromSeq : Option ℤ
  lastSeq : ℤ
deriving DecidableEq, Repr

structure TurnRow where
  id : String
  threadId : String
  seq : ℤ
  state : TurnState
  terminationReason : Option TerminationReason
  startedAt : ℤ
  endedAt : Option ℤ
  permissionProfile : PermissionProfile
deriving DecidableEq, Repr

structure ItemRow where
  id : String
  threadId : String
  turnId : String
  seq : ℤ
  type : String
  data : Value
  createdAt : ℤ
deriving Repr

/-- A row of the ledger. -/
structure SideEffectRow where
  id : String
  threadId : String
  turnId : String
  idempotencyKey : String
  kind : SideEffectKind
  destructive : Bool
  normalizedAction : String
  state : SideEffectState
  resultDigest : Option String
  createdAt : ℤ
  settledAt : Option ℤ
deriving DecidableEq, Repr

/-- Everything that is rebuilt from the log. -/
@[ext] structure Projection where
  threads : Keyed ThreadRow.id
  turns : Keyed TurnRow.id
  items : Keyed ItemRow.id
  sideEffects : Keyed SideEffectRow.id

@[ext] structure EventStore where
  events : Keyed EventRow.id
  projection : Projection

inductive FailureBoundary where
  | beforeEventInsert
  | afterEventInsertBeforeProjection
  | afterProjectionBeforeCommit
deriving DecidableEq, Repr

inductive StoreError where
  | invalidEvent
  | injected (boundary : FailureBoundary)
  /-- The disk, the lock or the driver. -/
  | unavailable
  | constraint (table : String)
  | corruptEvent
deriving DecidableEq, Repr

def Projection.empty : Projection := ⟨.empty, .empty, .empty, .empty⟩

def EventStore.empty : EventStore := ⟨.empty, .empty⟩

/-! ## Transactions -/

section Transaction

variable {α β ε : Type}

theorem bind_eq_ok {x : Except ε α} {f : α → Except ε β} {b : β} :
    x >>= f = .ok b ↔ ∃ a, x = .ok a ∧ f a = .ok b := by
  cases x with
  | error err => simp [Bind.bind, Except.bind]
  | ok a => simp [Bind.bind, Except.bind]

/-- Run a body atomically: what it reached is kept only if it did not throw. -/
def transaction (body : EventStore → Except StoreError (α × EventStore)) (s : EventStore) :
    Except StoreError α × EventStore :=
  match body s with
  | .ok (a, s') => (.ok a, s')
  | .error err => (.error err, s)

theorem transaction_error {body : EventStore → Except StoreError (α × EventStore)}
    {s : EventStore} {err : StoreError} (h : (transaction body s).1 = .error err) :
    (transaction body s).2 = s := by
  rw [transaction] at h ⊢
  cases hb : body s with
  | ok p => rw [hb] at h; cases h
  | error e => rfl

theorem transaction_ok_iff {body : EventStore → Except StoreError (α × EventStore)}
    {s s' : EventStore} {a : α} :
    transaction body s = (.ok a, s') ↔ body s = .ok (a, s') := by
  rw [transaction]
  cases hb : body s with
  | ok p => obtain ⟨b, s₁⟩ := p; simp
  | error e => simp

end Transaction

/-! ## Projecting one event -/

namespace Projection

def updateThread (p : Projection) (threadId : String) (f : ThreadRow → ThreadRow)
    (hf : ∀ r, (f r).id = r.id := by intro r; rfl) : Projection :=
  { p with threads := p.threads.modify threadId f hf }

def updateSideEffect (p : Projection) (id : String) (f : SideEffectRow → SideEffectRow)
    (hf : ∀ r, (f r).id = r.id := by intro r; rfl) : Projection :=
  { p with sideEffects := p.sideEffects.modify id f hf }

/-- `UPDATE turns … WHERE id = ?`, where the identifier may be null. -/
def updateTurn (p : Projection) (turnId : Option String) (f : TurnRow → TurnRow)
    (hf : ∀ r, (f r).id = r.id := by intro r; rfl) : Projection :=
  match turnId with
  | none => p
  | some id => { p with turns := p.turns.modify id f hf }

/-- What every event but the creation of its thread does last. -/
def touchThread (p : Projection) (e : HarnessEvent) : Projection :=
  p.updateThread e.threadId fun r ↦ { r with lastSeq := e.seq, updatedAt := e.timestamp }

def itemRow (item : Item) : ItemRow where
  id := item.base.id
  threadId := item.base.threadId
  turnId := item.base.turnId
  seq := item.base.seq
  type := originalType (some (itemSchema.enc item))
  data := (itemSchema.enc item).viaJson
  createdAt := item.base.createdAt

/-- `INSERT … ON CONFLICT(id) DO UPDATE SET data = excluded.data, type = excluded.type`. -/
def upsertItem (p : Projection) (item : Item) : Projection :=
  { p with items := p.items.upsert (itemRow item) fun r ↦
      { r with data := (itemRow item).data, type := (itemRow item).type } }

/-- Apply one event to the projections. Fails where SQL refuses the row. -/
def project (p : Projection) (e : HarnessEvent) : Option Projection :=
  match e.payload with
  | .threadCreated cwd canonicalRepo name =>
    (p.threads.insert
      { id := e.threadId, name, createdAt := e.timestamp, updatedAt := e.timestamp, canonicalRepo
        cwd, permissionProfile := e.permissionProfile, archived := false
        forkedFromThread := none, forkedFromSeq := none, lastSeq := e.seq }).map
      fun threads ↦ { p with threads }
  | .threadForked fromThreadId atSeq =>
    some <| (p.updateThread e.threadId fun r ↦
      { r with forkedFromThread := some fromThreadId, forkedFromSeq := some atSeq }).touchThread e
  | .threadRenamed name =>
    some <| (p.updateThread e.threadId fun r ↦ { r with name := some name }).touchThread e
  | .threadArchived =>
    some <| (p.updateThread e.threadId fun r ↦ { r with archived := true }).touchThread e
  | .cwdChanged _ target =>
    some <| (p.updateThread e.threadId fun r ↦ { r with cwd := target }).touchThread e
  | .turnStarted _ => do
    let turnId ← e.turnId
    let turns ← p.turns.insert
      { id := turnId, threadId := e.threadId, seq := e.seq, state := .preparing
        terminationReason := none, startedAt := e.timestamp, endedAt := none
        permissionProfile := e.permissionProfile }
    some <| Projection.touchThread { p with turns } e
  | .turnStateChanged _ target =>
    some <| (p.updateTurn e.turnId fun r ↦ { r with state := target }).touchThread e
  | .turnEnded state reason =>
    some <| (p.updateTurn e.turnId fun r ↦
      { r with state, terminationReason := some reason, endedAt := some e.timestamp }).touchThread e
  | .itemAppended item => some <| (p.upsertItem item).touchThread e
  | .itemUpdated item => some <| (p.upsertItem item).touchThread e
  | .sideEffectIntent intent => do
    let turnId ← e.turnId
    let sideEffects ← p.sideEffects.insert
      { id := intent.sideEffectId, threadId := e.threadId, turnId
        idempotencyKey := intent.idempotencyKey, kind := intent.kind
        destructive := intent.destructive, normalizedAction := intent.normalizedAction
        state := .notStarted, resultDigest := none, createdAt := e.timestamp, settledAt := none }
    some <| Projection.touchThread { p with sideEffects } e
  | .sideEffectStarted id =>
    some <| (p.updateSideEffect id fun r ↦ { r with state := .inFlight }).touchThread e
  | .sideEffectSettled id state resultDigest =>
    some <| (p.updateSideEffect id fun r ↦
      { r with state, resultDigest, settledAt := some e.timestamp }).touchThread e
  -- Other events are recorded in the log but project nothing.
  | _ => some (p.touchThread e)

/-- Replay a log over a projection. -/
def replay (p : Projection) (events : List HarnessEvent) : Option Projection :=
  events.foldlM project p

theorem replay_append (p : Projection) (es es' : List HarnessEvent) :
    p.replay (es ++ es') = (p.replay es).bind fun p' ↦ p'.replay es' := by
  rw [replay, List.foldlM_append]
  rfl

@[simp] theorem replay_nil (p : Projection) : p.replay [] = some p := rfl

@[simp] theorem replay_cons (p : Projection) (e : HarnessEvent) (es : List HarnessEvent) :
    p.replay (e :: es) = (p.project e).bind fun p' ↦ p'.replay es := rfl

end Projection

/-! ## Rows and events -/

/-- The row an event is split into. The actor's label has no column. -/
def eventRow (e : HarnessEvent) : EventRow where
  id := e.id
  schemaVersion := e.schemaVersion
  threadId := e.threadId
  seq := e.seq
  timestamp := e.timestamp
  turnId := e.turnId
  itemId := e.itemId
  actorKind := e.actor.kind.name
  actorId := e.actor.id
  correlationId := e.correlationId
  causationId := e.causationId
  permissionProfile := e.permissionProfile.name
  payloadType := originalType (some (payloadSchema.enc e.payload))
  payload := (payloadSchema.enc e.payload).viaJson

def nullOr : Option String → Value
  | none => .null
  | some s => .str s

/-- The object `rowToEvent` reassembles from the columns. -/
def rowValue (row : EventRow) : Value :=
  .obj [("id", .str row.id), ("schemaVersion", .int row.schemaVersion), ("seq", .int row.seq),
    ("timestamp", .int row.timestamp), ("threadId", .str row.threadId),
    ("turnId", nullOr row.turnId), ("itemId", nullOr row.itemId),
    ("actor", .obj [("kind", .str row.actorKind), ("id", .str row.actorId)]),
    ("correlationId", .str row.correlationId), ("causationId", nullOr row.causationId),
    ("permissionProfile", .str row.permissionProfile), ("payload", row.payload)]

/-- Reading is lenient on purpose: an event of a newer build must survive being read. -/
def rowToEvent (row : EventRow) : Except StoreError HarnessEvent :=
  match parseEventLenient (rowValue row) with
  | some e => .ok e
  | none => .error .corruptEvent

namespace EventStore

/-! ## Append -/

structure AppendInput where
  threadId : String
  payload : EventPayload
  actor : Actor
  correlationId : String
  causationId : Option String
  turnId : Option String
  itemId : Option String
  permissionProfile : PermissionProfile
deriving Repr

/-- What one append is answered from outside: the identifier it draws, the clock it reads, and
where its transaction is made to fail, if anywhere. -/
structure Draw where
  id : String
  now : ℤ
  fault : Option StoreError := none
deriving Repr

/-- `COALESCE(MAX(seq), -1) + 1` over the rows of a thread. -/
def nextSeq (s : EventStore) (threadId : String) : ℤ :=
  ((s.events.rows.filter fun r ↦ r.threadId = threadId).map EventRow.seq).foldl max (-1) + 1

/-- The envelope an append gives its event. -/
def envelope (input : AppendInput) (draw : Draw) (seq : ℤ) : EventEnvelope where
  id := draw.id
  schemaVersion := currentSchemaVersion
  seq := seq
  timestamp := draw.now
  threadId := input.threadId
  turnId := input.turnId
  itemId := input.itemId
  actor := input.actor
  correlationId := input.correlationId
  causationId := input.causationId
  permissionProfile := input.permissionProfile

/-- `HarnessEventSchema.parse` of the envelope around a redacted payload. -/
def parseEvent (envelope : EventEnvelope) (redactedPayload : Value) :
    Except StoreError HarnessEvent :=
  match eventSchema.dec (.obj (envelopeFields.enc envelope ++ [("payload", redactedPayload)])) with
  | some e => .ok e
  | none => .error .invalidEvent

/-- `INSERT INTO events`, under both of the table's unique constraints. -/
def insertEvent (events : Keyed EventRow.id) (row : EventRow) :
    Except StoreError (Keyed EventRow.id) :=
  if events.rows.any fun r ↦ r.threadId = row.threadId ∧ r.seq = row.seq then
    .error (.constraint "events")
  else
    match events.insert row with
    | some events => .ok events
    | none => .error (.constraint "events")

/-- Stop here if the failure that was arranged belongs to this boundary. -/
def failAt (fault : Option StoreError) (boundary : FailureBoundary) : Except StoreError Unit :=
  if fault = some (.injected boundary) then .error (.injected boundary) else .ok ()

def applyProjection (p : Projection) (e : HarnessEvent) : Except StoreError Projection :=
  match p.project e with
  | some p => .ok p
  | none => .error (.constraint "projection")

/-- The commit itself can fail. -/
def commit (fault : Option StoreError) : Except StoreError Unit :=
  if fault = some .unavailable then .error .unavailable else .ok ()

/-- Append one event and apply its projection, in one transaction. -/
def append (r : Redactor) (input : AppendInput) (draw : Draw) :
    EventStore → Except StoreError HarnessEvent × EventStore :=
  let redactedPayload := r.redactValue (payloadSchema.enc input.payload)
  transaction fun s ↦ do
    let event ← parseEvent (envelope input draw (s.nextSeq input.threadId)) redactedPayload
    failAt draw.fault .beforeEventInsert
    let events ← insertEvent s.events (eventRow event)
    failAt draw.fault .afterEventInsertBeforeProjection
    let projection ← applyProjection s.projection event
    failAt draw.fault .afterProjectionBeforeCommit
    commit draw.fault
    return (event, ⟨events, projection⟩)

/-! ## Reading -/

/-- Every event in global insertion order. -/
def readAll (s : EventStore) : Except StoreError (List HarnessEvent) :=
  s.events.rows.mapM rowToEvent

/-- The events of a thread from a sequence number on, in sequence order. -/
def readThread (s : EventStore) (threadId : String) (fromSeq : ℤ := 0) :
    Except StoreError (List HarnessEvent) :=
  ((s.events.rows.filter fun r ↦ r.threadId = threadId ∧ fromSeq ≤ r.seq).insertionSort
    fun a b ↦ a.seq ≤ b.seq).mapM rowToEvent

def getThread (s : EventStore) (threadId : String) : Option ThreadRow :=
  s.projection.threads.find? threadId

/-! ## Maintenance -/

/-- Drop every projection and replay the log, in one transaction. -/
def rebuildProjections (s : EventStore) : Except StoreError ℕ × EventStore :=
  match s.readAll with
  | .error err => (.error err, s)
  | .ok events =>
    transaction (s := s) fun s ↦
      match Projection.empty.replay events with
      | some projection => .ok (events.length, { s with projection })
      | none => .error (.constraint "projection")

/-- Everything `prune` deletes for one stale thread, and how many events that was. -/
def pruneThread (s : EventStore) (id : String) : ℕ × EventStore :=
  let doomed := s.events.rows.filter fun r ↦ r.threadId = id
  (doomed.length,
    { events := s.events.filter fun r ↦ r.threadId ≠ id
      projection :=
        { turns := s.projection.turns.filter fun r ↦ r.threadId ≠ id
          items := s.projection.items.filter fun r ↦ r.threadId ≠ id
          sideEffects := s.projection.sideEffects.filter fun r ↦ r.threadId ≠ id
          threads := s.projection.threads.filter fun r ↦ r.id ≠ id } })

/-- The threads whose last activity predates a cutoff. -/
def staleThreads (s : EventStore) (cutoff : ℤ) : List String :=
  (s.projection.threads.rows.filter fun r ↦ r.updatedAt < cutoff).map ThreadRow.id

/-- Retention: drop every stale thread with all of its rows. Answers how many threads and how many
events went. -/
def prune (s : EventStore) (olderThanMs now : ℤ) : (ℕ × ℕ) × EventStore :=
  let stale := s.staleThreads (now - olderThanMs)
  let (eventsPruned, s') := stale.foldl
    (fun (n, s) id ↦ ((s.pruneThread id).1 + n, (s.pruneThread id).2)) (0, s)
  ((stale.length, eventsPruned), s')

/-! ## The side-effect ledger -/

/-- The newest row under a key. Of rows created at the same instant the first one inserted
counts. -/
def latestAttempt (s : EventStore) (idempotencyKey : String) : Option SideEffectRow :=
  Keyed.newest SideEffectRow.createdAt (fun r ↦ r.idempotencyKey = idempotencyKey)
    s.projection.sideEffects.rows

/-- The state the ledger reports for a key; `none` is `not-recorded`. -/
def sideEffectState (s : EventStore) (idempotencyKey : String) : Option SideEffectState :=
  (s.latestAttempt idempotencyKey).map SideEffectRow.state

/-- An answer of the recovery guard. -/
structure MayExecute where
  allowed : Bool
  reason : String
deriving DecidableEq, Repr

def mayExecuteIn : Option SideEffectState → MayExecute
  | none => ⟨true, "no prior execution recorded"⟩
  | some .notStarted => ⟨true, "no prior execution recorded"⟩
  | some .knownFailed => ⟨true, "prior attempt is known to have failed; safe to retry"⟩
  | some .knownComplete =>
    ⟨false, "already completed; re-running would duplicate the side effect"⟩
  | some .inFlight =>
    ⟨false, "outcome is indeterminate after interruption; requires inspection, never blind replay"⟩
  | some .indeterminate =>
    ⟨false, "outcome is indeterminate after interruption; requires inspection, never blind replay"⟩

/-- Whether a side effect with this key may run. -/
def mayExecute (s : EventStore) (idempotencyKey : String) : MayExecute :=
  mayExecuteIn (s.sideEffectState idempotencyKey)

/-- Crash recovery: whatever was in flight becomes indeterminate. Answers how many rows that
was. -/
def recoverInterrupted (s : EventStore) : ℕ × EventStore :=
  let interrupted := fun r : SideEffectRow ↦ decide (r.state = .inFlight)
  let sideEffects := s.projection.sideEffects.modifyWhere interrupted
    (fun r ↦ { r with state := .indeterminate }) fun _ ↦ rfl
  ((s.projection.sideEffects.rows.filter interrupted).length,
    { s with projection := { s.projection with sideEffects } })

/-- What the operator is shown of an indeterminate side effect. -/
structure Indeterminate where
  id : String
  normalizedAction : String
  destructive : Bool
deriving DecidableEq, Repr

def listIndeterminate (s : EventStore) (threadId : String) : List Indeterminate :=
  (s.projection.sideEffects.rows.filter fun r ↦
    r.threadId = threadId ∧ r.state = .indeterminate).map
      fun r ↦ ⟨r.id, r.normalizedAction, r.destructive⟩

end EventStore

end QwenHarness
