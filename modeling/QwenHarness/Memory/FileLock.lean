import QwenHarness.Files.Slot
import QwenHarness.Run.Along

/-!
# The lock of the memory files

A writer holds a lock file for as long as its lease runs. The file is created exclusively, and a
record with the holder and the end of the lease is written into it; a file whose lease has ended is
removed by the next who wants it. A lease may be renewed, which overwrites the record.

Each call is a sequence of file steps. A file is empty until its record is written, and an empty
file counts as one whose lease has ended. What a step does rests on what an earlier step has read,
and the holder in the record is a name that several clients may share.
-/

namespace QwenHarness.Memory

/-! ## Locks -/

structure LockRecord where
  holder : String
  acquiredAt : ℕ
  leaseExpiresAt : ℕ
deriving DecidableEq, Repr

structure AcquireOptions where
  holder : String
  leaseMs : ℕ := 5 * 60 * 1000
  timeoutMs : ℕ := 30000
  retryMs : ℕ := 25
deriving DecidableEq, Repr

/-- What a client has in hand once it has the lock. `file` is the file it has created; the program
does not know it. -/
structure FileLock where
  file : ℕ
  leaseExpiresAt : ℕ
  released : Bool
deriving DecidableEq, Repr

/-- A file and what was read in it; the program knows the content only. -/
abbrev Found := ℕ × Option LockRecord

/-- Where a client stands in `acquire`, and the lock it has after it. What it does next is the step
that is named. -/
inductive Client where
  | idle
  | starting (deadline : ℕ)
  | opening (deadline now : ℕ)
  | writing (fd : ℕ) (record : LockRecord)
  | closing (fd : ℕ) (record : LockRecord)
  | reading (deadline now : ℕ)
  | stealing (deadline : ℕ) (seen : Option Found)
  | sleeping (deadline wake : ℕ)
  | failed (message : String)
  | locked (lock : FileLock)
deriving DecidableEq, Repr

/-- Where a call of `renew` or `release` stands, for the lock of a client. -/
inductive Task where
  | done (thrown : Option String)
  | renewReading (c : ℕ)
  | renewOpening (c : ℕ) (seen : Found) (record : LockRecord)
  | renewWriting (c : ℕ) (fd : ℕ) (record : LockRecord)
  | renewClosing (c : ℕ) (record : LockRecord)
  | releaseReading (c : ℕ)
  | releaseRemoving (c : ℕ) (seen : Found)
deriving DecidableEq, Repr

structure LockState where
  file : Slot ℕ LockRecord
  now : ℕ
  client : ℕ → Client
  task : ℕ → Task

namespace LockState

variable (s : LockState)

def setFile (file : Slot ℕ LockRecord) : LockState := { s with file := file }

def setClient (c : ℕ) (x : Client) : LockState :=
  { s with client := Function.update s.client c x }

def setTask (t : ℕ) (x : Task) : LockState := { s with task := Function.update s.task t x }

/-- Open with `w`: a file that is there is emptied, and one that is not is created. -/
def openOver : ℕ × Slot ℕ LockRecord :=
  match s.file.here with
  | some g => (g, s.file.set g none)
  | none => (s.file.next, s.file.create none)

end LockState

/-! ## Steps -/

variable (lockPath : String) (options : ℕ → AcquireOptions)

/-- The message of a `MemoryLockError`. -/
def lockError (detail : String) : String := "memory lock " ++ lockPath ++ ": " ++ detail

/-- The record of a client that begins another attempt. -/
def newRecord (c now : ℕ) : LockRecord :=
  ⟨(options c).holder, now, now + (options c).leaseMs⟩

/-- A file that is gone, that cannot be read, or whose lease has ended. -/
def isStale (found : Option Found) (now : ℕ) : Bool :=
  match found with
  | some (_, some record) => decide (record.leaseExpiresAt ≤ now)
  | _ => true

/-- The next step of `acquire`. -/
def advance (c : ℕ) (s : LockState) : LockState :=
  match s.client c with
  | .starting deadline => s.setClient c (.opening deadline s.now)
  | .opening deadline now =>
    match s.file.here with
    | none => (s.setFile (s.file.create (some c))).setClient c
        (.writing s.file.next (newRecord options c now))
    | some _ => s.setClient c (.reading deadline s.now)
  | .writing fd record => (s.setFile (s.file.set fd (some record))).setClient c (.closing fd record)
  | .closing fd record => s.setClient c (.locked ⟨fd, record.leaseExpiresAt, false⟩)
  | .reading deadline now =>
    if isStale s.file.read now then s.setClient c (.stealing deadline s.file.read)
    else if deadline ≤ s.now then
      s.setClient c (.failed (lockError lockPath
        ("not acquired within " ++ toString (options c).timeoutMs ++ "ms")))
    else s.setClient c (.sleeping deadline (s.now + (options c).retryMs))
  | .stealing deadline _ => (s.setFile s.file.unlink).setClient c (.opening deadline s.now)
  | .sleeping deadline wake =>
    if wake ≤ s.now then s.setClient c (.opening deadline s.now) else s
  | .idle | .failed _ | .locked _ => s

/-- The next step of a call of `renew` or `release`. -/
def step (t : ℕ) (s : LockState) : LockState :=
  match s.task t with
  | .renewReading c =>
    match s.file.read with
    | none => s.setTask t (.done (some (lockError lockPath "lock lost (removed)")))
    | some (_, none) => s.setTask t (.done (some "Unexpected end of JSON input"))
    | some (g, some current) =>
      if current.holder ≠ (options c).holder then
        s.setTask t (.done (some (lockError lockPath
          ("lock lost (held by " ++ current.holder ++ ")"))))
      else s.setTask t (.renewOpening c (g, some current)
        { newRecord options c s.now with acquiredAt := current.acquiredAt })
  | .renewOpening c _ record =>
    (s.setFile s.openOver.2).setTask t (.renewWriting c s.openOver.1 record)
  | .renewWriting c fd record =>
    (s.setFile (s.file.set fd (some record))).setTask t (.renewClosing c record)
  | .renewClosing c record =>
    match s.client c with
    | .locked lock =>
      (s.setClient c (.locked { lock with leaseExpiresAt := record.leaseExpiresAt })).setTask t
        (.done none)
    | _ => s
  | .releaseReading c =>
    match s.file.read with
    | some (g, some current) =>
      if current.holder = (options c).holder then
        s.setTask t (.releaseRemoving c (g, some current))
      else s.setTask t (.done none)
    | _ => s.setTask t (.done none)
  | .releaseRemoving _ _ => (s.setFile s.file.unlink).setTask t (.done none)
  | .done _ => s

inductive LockMove where
  /-- A client calls `acquire`, which it does once. -/
  | acquire (c : ℕ)
  | advance (c : ℕ)
  /-- `renew` is called on the lock of a client. -/
  | renew (t c : ℕ)
  | release (t c : ℕ)
  | step (t : ℕ)
  | tick (ms : ℕ)
deriving DecidableEq, Repr

def move : LockMove → LockState → LockState
  | .acquire c, s =>
    match s.client c with
    | .idle => s.setClient c (.starting (s.now + (options c).timeoutMs))
    | _ => s
  | .advance c, s => advance lockPath options c s
  | .renew t c, s =>
    match s.task t, s.client c with
    | .done _, .locked lock =>
      if lock.released then s.setTask t (.done (some (lockError lockPath "renew after release")))
      else s.setTask t (.renewReading c)
    | _, _ => s
  | .release t c, s =>
    match s.task t, s.client c with
    | .done _, .locked lock =>
      if lock.released then s.setTask t (.done none)
      else (s.setClient c (.locked { lock with released := true })).setTask t (.releaseReading c)
    | _, _ => s
  | .step t, s => step lockPath options t s
  | .tick ms, s => { s with now := s.now + ms }

/-! ## Exclusion -/

/-- The client has acquired and not released, and its lease has not ended. -/
def Holds (s : LockState) (c : ℕ) : Prop :=
  ∃ lock, s.client c = .locked lock ∧ lock.released = false ∧ s.now < lock.leaseExpiresAt

def Exclusive (s : LockState) : Prop := ∀ c c', Holds s c → Holds s c' → c = c'

/-- A renewal extends the lease of the client that has created the lock file, and a release removes
no file that another has created. -/
def OwnFile : LockMove → LockState → Prop
  | .step t, s =>
    match s.task t with
    | .renewWriting c fd _ => s.file.here = some fd ∧ s.file.creator fd = some c
    | .releaseRemoving c _ => ∀ g, s.file.here = some g → s.file.creator g = some c
    | _ => True
  | _, _ => True

/-- Nothing has begun. There may be a lock file, but none of the clients has created it. -/
structure Started (s : LockState) : Prop where
  creator : ∀ g, s.file.creator g = none
  idle : ∀ c, s.client c = .idle
  done : ∀ t, s.task t = .done none

/-- What is read as its own by a client is the file it has created. -/
def ReadsItsOwn (s : LockState) (c : ℕ) : Prop :=
  ∀ g record, s.file.read = some (g, some record) → record.holder = (options c).holder →
    ∀ lock, s.client c = .locked lock → lock.file = g

/-- **The condition on a move.** No file is found that is not written yet. What is removed or
written over is, unchanged, what the caller has read. A name in a record is that of one client only,
as far as a renewal or a release reads it. -/
def Careful : LockMove → LockState → Prop
  | .advance c, s =>
    match s.client c with
    | .reading _ _ => ∀ g, s.file.here = some g → s.file.content g ≠ none
    | .stealing _ seen => s.file.here = none ∨ s.file.read = seen
    | _ => True
  | .step t, s =>
    match s.task t with
    | .renewReading c | .releaseReading c => ReadsItsOwn options s c
    | .renewOpening _ seen _ => s.file.read = some seen
    | .releaseRemoving _ seen => s.file.here = none ∨ s.file.read = some seen
    | _ => True
  | _, _ => True

/-! ### Leases and writers -/

/-- A lease on a file until some time: of a client that has or is about to have the lock, and of a
renewal that is about to return. -/
inductive Lease (s : LockState) : ℕ → ℕ → ℕ → Prop
  | closing {c g record} : s.client c = .closing g record → Lease s c g record.leaseExpiresAt
  | held {c lock} : s.client c = .locked lock → lock.released = false →
      Lease s c lock.file lock.leaseExpiresAt
  | renewed {c t lock record} : s.task t = .renewClosing c record → s.client c = .locked lock →
      lock.released = false → Lease s c lock.file record.leaseExpiresAt

/-- Who writes: a client in `acquire`, or a call of `renew`. -/
inductive Writer where
  | client (c : ℕ)
  | task (t : ℕ)

/-- Whoever has an empty file open will write a record of a client into it. -/
inductive Writing (s : LockState) : Writer → ℕ → ℕ → LockRecord → Prop
  | client {c g record} : s.client c = .writing g record → Writing s (.client c) c g record
  | task {t c g record} : s.task t = .renewWriting c g record → Writing s (.task t) c g record

/-- The lease has ended, or the file stands under the name, its client has created it, and whoever
reads it finds a record that does not end sooner. -/
def Backed (s : LockState) (c g e : ℕ) : Prop :=
  e ≤ s.now ∨ s.file.here = some g ∧ s.file.creator g = some c ∧
    ∀ record, s.file.content g = some record → e ≤ record.leaseExpiresAt

/-- No record of the client that is written now would end later. -/
def Timely (s : LockState) (c : ℕ) (record : LockRecord) : Prop :=
  record.leaseExpiresAt ≤ s.now + (options c).leaseMs

/-- What a client has created or has read. -/
def ClientKnown (s : LockState) (c : ℕ) : Client → Prop
  | .opening _ now => now ≤ s.now
  | .reading _ now => now ≤ s.now
  | .closing g _ => s.file.creator g = some c ∧ g < s.file.next
  | .stealing _ seen =>
    ∀ found, seen = some found → ∃ record, found.2 = some record ∧ record.leaseExpiresAt ≤ s.now
  | .locked lock => s.file.creator lock.file = some c ∧ lock.file < s.file.next
  | _ => True

/-- What a call of `renew` or `release` is about. -/
def TaskKnown (s : LockState) : Task → Prop
  | .renewReading c => ∃ lock, s.client c = .locked lock
  | .renewOpening c seen record => ∃ lock r, s.client c = .locked lock ∧
      seen = (lock.file, some r) ∧ r.leaseExpiresAt ≤ record.leaseExpiresAt ∧
        Timely options s c record
  | .renewWriting c fd _ => ∃ lock, s.client c = .locked lock ∧ fd = lock.file
  | .renewClosing c _ => ∃ lock, s.client c = .locked lock
  | .releaseReading c => ∃ lock, s.client c = .locked lock ∧ lock.released = true
  | .releaseRemoving c seen => ∃ lock r, s.client c = .locked lock ∧ lock.released = true ∧
      seen = (lock.file, some r)
  | .done _ => True

/-- **The invariant.** -/
structure Inv (s : LockState) : Prop where
  backed : ∀ c g e, Lease s c g e → Backed s c g e
  /-- Who writes has the file under the name, empty; and no lease on it ends later than the one that
  is about to be written. -/
  writing : ∀ w c g record, Writing s w c g record → s.file.here = some g ∧
    s.file.content g = none ∧ s.file.creator g = some c ∧ Timely options s c record ∧
      ∀ c' e, Lease s c' g e → e ≤ s.now ∨ e ≤ record.leaseExpiresAt
  sole : ∀ w w' c c' g g' record record', Writing s w c g record → Writing s w' c' g' record' →
    w = w'
  written : ∀ g c record, s.file.content g = some record → s.file.creator g = some c →
    Timely options s c record
  client : ∀ c, ClientKnown s c (s.client c)
  task : ∀ t, TaskKnown options s (s.task t)

/-- **An invariant state is exclusive.** -/
theorem Inv.exclusive {s : LockState} (h : Inv options s) : Exclusive s := by
  rintro c c' ⟨lock, hc, hreleased, hnow⟩ ⟨lock', hc', hreleased', hnow'⟩
  rcases h.backed c _ _ (.held hc hreleased) with hended | ⟨hhere, hcreator, -⟩
  · exact absurd hended (Nat.not_le_of_lt hnow)
  rcases h.backed c' _ _ (.held hc' hreleased') with hended | ⟨hhere', hcreator', -⟩
  · exact absurd hended (Nat.not_le_of_lt hnow')
  exact Slot.eq_of_creator hhere hhere' hcreator hcreator'

end QwenHarness.Memory
