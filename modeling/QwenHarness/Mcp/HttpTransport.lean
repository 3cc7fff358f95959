import Mathlib.Order.Nat
import QwenHarness.Run.Along

/-!
# The stream of the HTTP transport

The transport keeps a stream open for what the server has to say. If an open fails, or the stream
drops, it waits and opens another one, from the last event on, until it has tried so many times.

How many times it has tried is counted by the open calls themselves, each of which passes its own
number on: a call that succeeds does not start the count again. And a call that is still waiting
when the transport is closed keeps the stream it is given. So the transport does what it is for if
and only if it never gives up once a retry has succeeded, and no stream is opened too late
(`reconnects_iff`).
-/

namespace QwenHarness.Mcp

open Run

/-! ## The transport -/

/-- What the transport has under way: nothing, an open call that waits for its stream, the stream
of an open call, or the time before the next one. Each has the number of its attempt. -/
inductive StreamState
  | idle
  | opening (attempt : ℕ)
  | connected (attempt : ℕ)
  | sleeping (attempt : ℕ)
deriving DecidableEq, Repr

structure HttpTransport where
  stopped : Bool
  lastEventId : Option String
  stream : StreamState
deriving DecidableEq, Repr

/-- What the transport does: it opens a stream from an event on, closes the one it has, or tells its
listeners that it is closed, after so many attempts if it has given up. -/
inductive TransportAction
  | openSse (lastEventId : Option String)
  | closeSse
  | emitClose (exhausted : Option ℕ)
deriving DecidableEq, Repr

/-- What happens to the transport. -/
inductive TransportMove
  /-- The open call is given its stream. -/
  | opened
  /-- The open call fails. -/
  | failed
  | event (id : Option String)
  /-- The stream ends without a fault. -/
  | ended
  /-- The stream drops. -/
  | dropped
  /-- The time before the next open call is over. -/
  | woke
  /-- The sleep is aborted. -/
  | aborted
  | close
deriving DecidableEq, Repr

namespace HttpTransport

variable (maxAttempts : ℕ) (t : HttpTransport)

def openStream (attempt : ℕ) : HttpTransport × List TransportAction :=
  if t.stopped then ({ t with stream := .idle }, [])
  else ({ t with stream := .opening attempt }, [.openSse t.lastEventId])

def scheduleReconnect (attempt : ℕ) : HttpTransport × List TransportAction :=
  if t.stopped then ({ t with stream := .idle }, [])
  else if maxAttempts < attempt then
    ({ t with stopped := true, stream := .idle }, [.emitClose (some (attempt - 1))])
  else ({ t with stream := .sleeping attempt }, [])

/-- The event's id is kept, if it has one. -/
def onEvent (id : Option String) : HttpTransport :=
  match id with
  | some id => { t with lastEventId := some id }
  | none => t

def close : HttpTransport × List TransportAction :=
  match t.stream with
  | .connected _ => ({ t with stopped := true, stream := .idle }, [.closeSse, .emitClose none])
  | _ => ({ t with stopped := true }, [.emitClose none])

def step : TransportMove → HttpTransport × List TransportAction
  | .opened =>
    match t.stream with
    -- The stream is kept, also if the transport has been closed in the meantime.
    | .opening attempt => ({ t with stream := .connected attempt }, [])
    | _ => (t, [])
  | .failed =>
    match t.stream with
    | .opening attempt => t.scheduleReconnect maxAttempts (attempt + 1)
    | _ => (t, [])
  | .event id =>
    match t.stream with
    | .connected _ => (t.onEvent id, [])
    | _ => (t, [])
  | .ended =>
    match t.stream with
    | .connected _ => ({ t with stream := .idle }, [])
    | _ => (t, [])
  | .dropped =>
    match t.stream with
    -- The number is that of the call, whether or not it is the first since a success.
    | .connected attempt => t.scheduleReconnect maxAttempts (attempt + 1)
    | _ => (t, [])
  | .woke =>
    match t.stream with
    | .sleeping attempt => t.openStream attempt
    | _ => (t, [])
  | .aborted =>
    match t.stream with
    | .sleeping _ => ({ t with stream := .idle }, [])
    | _ => (t, [])
  | .close => t.close

/-- `start`: the first open call. -/
def start : HttpTransport × List TransportAction := openStream ⟨false, none, .idle⟩ 0

end HttpTransport

/-- The action tells the listeners that the transport is closed. -/
def TransportAction.isEmitClose : TransportAction → Bool
  | .emitClose _ => true
  | _ => false

/-! ## What the transport is for -/

/-- The transport, and what has become of its open calls: how many have failed since the last that
succeeded, the number of that one, the id of the last event that has come with one, and whether the
transport was closed or has given up. -/
structure WatchedTransport where
  transport : HttpTransport
  failures : ℕ
  lastOpened : Option ℕ
  received : Option String
  shut : Bool
deriving DecidableEq, Repr

namespace WatchedTransport

def start : WatchedTransport := ⟨HttpTransport.start.1, 0, none, none, false⟩

variable (maxAttempts : ℕ)

/-- What the transport does at a move. -/
def actions (move : TransportMove) (w : WatchedTransport) : List TransportAction :=
  (w.transport.step maxAttempts move).2

def watch (move : TransportMove) (w : WatchedTransport) : WatchedTransport where
  transport := (w.transport.step maxAttempts move).1
  failures :=
    match move, w.transport.stream with
    | .opened, .opening _ => 0
    | .failed, .opening _ => w.failures + 1
    | _, _ => w.failures
  lastOpened :=
    match move, w.transport.stream with
    | .opened, .opening attempt => some attempt
    | _, _ => w.lastOpened
  received :=
    match move, w.transport.stream with
    | .event (some id), .connected _ => some id
    | _, _ => w.received
  shut := if (w.actions maxAttempts move).any TransportAction.isEmitClose then true else w.shut

/-- **What a move of the transport must be like.** It gives up after so many open calls that failed
one after the other, opens a stream from the last event on, and once it is closed or has given up
it opens no stream and has none. -/
structure Reconnects (move : TransportMove) (w : WatchedTransport) : Prop where
  exhausted : ∀ n, .emitClose (some n) ∈ w.actions maxAttempts move →
    maxAttempts ≤ (w.watch maxAttempts move).failures
  resumes : ∀ id, .openSse id ∈ w.actions maxAttempts move → id = w.received
  silent : w.shut = true → ∀ id, .openSse id ∉ w.actions maxAttempts move
  released : (w.watch maxAttempts move).shut = true →
    ∀ attempt, (w.watch maxAttempts move).transport.stream ≠ .connected attempt

/-- The last attempt fails, or its stream drops. -/
def Exhausts (move : TransportMove) (w : WatchedTransport) : Prop :=
  w.shut = false ∧ (move = .failed ∧ w.transport.stream = .opening maxAttempts ∨
    move = .dropped ∧ w.transport.stream = .connected maxAttempts)

/-- No retry has succeeded when the last attempt fails, or its stream drops, and no open call
succeeds too late. -/
structure Steady (move : TransportMove) (w : WatchedTransport) : Prop where
  exhausts : w.Exhausts maxAttempts move → ∀ attempt, w.lastOpened = some attempt → attempt = 0
  timely : move = .opened → ∀ attempt, w.transport.stream = .opening attempt → w.shut = false

/-! ## Counting -/

/-- The number of an attempt counts the open calls that have failed since the last that succeeded,
from the number of that one on. -/
def Since (attempt failures : ℕ) : Option ℕ → Prop
  | none => failures = attempt
  | some last => failures + last + 1 = attempt

/-- What the numbers of the attempts count. -/
structure Counted (w : WatchedTransport) : Prop where
  shut : w.shut = w.transport.stopped
  received : w.received = w.transport.lastEventId
  waiting : ∀ attempt,
    w.transport.stream = .opening attempt ∨ w.transport.stream = .sleeping attempt →
      attempt ≤ maxAttempts ∧ Since attempt w.failures w.lastOpened
  connected : ∀ attempt, w.transport.stream = .connected attempt → w.shut = false ∧
    attempt ≤ maxAttempts ∧ w.failures = 0 ∧ w.lastOpened = some attempt

variable {maxAttempts} {w : WatchedTransport}

theorem counted_start : Counted maxAttempts start := by
  refine ⟨rfl, rfl, fun attempt h ↦ ?_, fun attempt h ↦ ?_⟩
  · rcases h with h | h
    · cases h
      exact ⟨Nat.zero_le _, rfl⟩
    · cases h
  · cases h

/-- With nothing under way there is nothing to count. -/
theorem counted_idle (hover : w.shut = w.transport.stopped)
    (hreceived : w.received = w.transport.lastEventId) (hs : w.transport.stream = .idle) :
    Counted maxAttempts w := by
  refine ⟨hover, hreceived, fun attempt h ↦ ?_, fun attempt h ↦ ?_⟩
  · rw [hs] at h
    rcases h with h | h <;> cases h
  · rw [hs] at h
    cases h

theorem counted_sleeping {attempt : ℕ} (hover : w.shut = w.transport.stopped)
    (hreceived : w.received = w.transport.lastEventId)
    (hs : w.transport.stream = .sleeping attempt ∨ w.transport.stream = .opening attempt)
    (hle : attempt ≤ maxAttempts) (hsince : Since attempt w.failures w.lastOpened) :
    Counted maxAttempts w := by
  refine ⟨hover, hreceived, fun attempt' h ↦ ?_, fun attempt' h ↦ ?_⟩
  · have heq : attempt = attempt' := by
      rcases hs with hs | hs <;> rw [hs] at h <;> simpa using h
    exact heq ▸ ⟨hle, hsince⟩
  · rw [h] at hs
    rcases hs with hs | hs <;> cases hs

/-! ## The moves that the transport answers to -/

/-- The transport answers to the move in this state of its stream. -/
inductive Answered : TransportMove → StreamState → Prop
  | opened (attempt : ℕ) : Answered .opened (.opening attempt)
  | failed (attempt : ℕ) : Answered .failed (.opening attempt)
  | event (id : Option String) (attempt : ℕ) : Answered (.event id) (.connected attempt)
  | ended (attempt : ℕ) : Answered .ended (.connected attempt)
  | dropped (attempt : ℕ) : Answered .dropped (.connected attempt)
  | woke (attempt : ℕ) : Answered .woke (.sleeping attempt)
  | aborted (attempt : ℕ) : Answered .aborted (.sleeping attempt)
  | close (stream : StreamState) : Answered .close stream

/-- A move that the transport does not answer to changes nothing. -/
theorem answered_or (maxAttempts : ℕ) (move : TransportMove) (w : WatchedTransport) :
    Answered move w.transport.stream ∨
      w.actions maxAttempts move = [] ∧ w.watch maxAttempts move = w := by
  obtain ⟨⟨stopped, lastEventId, stream⟩, failures, lastOpened, received, shut⟩ := w
  cases move with
  | event id =>
    cases stream with
    | connected attempt => exact .inl (.event id attempt)
    | _ => cases id <;> exact .inr ⟨rfl, rfl⟩
  | close => exact .inl (.close stream)
  | _ => cases stream <;> first | exact .inr ⟨rfl, rfl⟩ | exact .inl (by constructor)

section Schedule

variable {t : HttpTransport} {attempt : ℕ}

/-- **Another attempt is scheduled**, or the transport gives up, or it was stopped before. -/
theorem schedule_cases (maxAttempts : ℕ) (t : HttpTransport) (attempt : ℕ) :
    t.stopped = true ∧
        t.scheduleReconnect maxAttempts attempt = ({ t with stream := .idle }, []) ∨
      t.stopped = false ∧ maxAttempts < attempt ∧ t.scheduleReconnect maxAttempts attempt =
        ({ t with stopped := true, stream := .idle }, [.emitClose (some (attempt - 1))]) ∨
      t.stopped = false ∧ attempt ≤ maxAttempts ∧ t.scheduleReconnect maxAttempts attempt =
        ({ t with stream := .sleeping attempt }, []) := by
  rw [HttpTransport.scheduleReconnect]
  cases t.stopped with
  | true => exact .inl ⟨rfl, rfl⟩
  | false =>
    rw [if_neg Bool.false_ne_true]
    split
    · next hlt => exact .inr (.inl ⟨rfl, hlt, rfl⟩)
    · next hle => exact .inr (.inr ⟨rfl, not_lt.mp hle, rfl⟩)

theorem gives_up_iff {n : ℕ} :
    .emitClose (some n) ∈ (t.scheduleReconnect maxAttempts attempt).2 ↔
      t.stopped = false ∧ maxAttempts < attempt ∧ n = attempt - 1 := by
  rcases schedule_cases maxAttempts t attempt with
    ⟨hstopped, heq⟩ | ⟨hstopped, hlt, heq⟩ | ⟨hstopped, hle, heq⟩
  · rw [heq, hstopped]
    simp
  · rw [heq, hstopped]
    simp [hlt]
  · rw [heq, hstopped]
    simp [not_lt.mpr hle]

theorem openSse_not_mem_schedule (id : Option String) :
    .openSse id ∉ (t.scheduleReconnect maxAttempts attempt).2 := by
  rcases schedule_cases maxAttempts t attempt with
    ⟨-, heq⟩ | ⟨-, -, heq⟩ | ⟨-, -, heq⟩ <;> rw [heq] <;> simp

theorem stream_schedule_ne (attempt' : ℕ) :
    (t.scheduleReconnect maxAttempts attempt).1.stream ≠ .connected attempt' := by
  rcases schedule_cases maxAttempts t attempt with
    ⟨-, heq⟩ | ⟨-, -, heq⟩ | ⟨-, -, heq⟩ <;> rw [heq] <;> exact fun h ↦ by cases h

/-- The transport after an attempt has been scheduled. -/
def afterSchedule (maxAttempts : ℕ) (t : HttpTransport) (attempt failures : ℕ)
    (lastOpened : Option ℕ) : WatchedTransport where
  transport := (t.scheduleReconnect maxAttempts attempt).1
  failures := failures
  lastOpened := lastOpened
  received := t.lastEventId
  shut := if (t.scheduleReconnect maxAttempts attempt).2.any TransportAction.isEmitClose then true
    else t.stopped

theorem counted_afterSchedule {failures : ℕ} {lastOpened : Option ℕ}
    (h : Since attempt failures lastOpened) :
    Counted maxAttempts (afterSchedule maxAttempts t attempt failures lastOpened) := by
  rcases schedule_cases maxAttempts t attempt with
    ⟨hstopped, heq⟩ | ⟨hstopped, hlt, heq⟩ | ⟨hstopped, hle, heq⟩
  all_goals rw [afterSchedule, heq]
  · exact counted_idle rfl rfl rfl
  · exact counted_idle rfl rfl rfl
  · exact counted_sleeping rfl rfl (.inl rfl) hle h

end Schedule

/-- **The numbers count on**, unless an open call succeeds too late. -/
theorem counted_watch {move : TransportMove} (h : Counted maxAttempts w)
    (hmove : Reconnects maxAttempts move w) : Counted maxAttempts (w.watch maxAttempts move) := by
  rcases (answered_or maxAttempts move w).symm with ⟨-, heq⟩ | hanswered
  · rw [heq]
    exact h
  obtain ⟨⟨stopped, lastEventId, stream⟩, failures, lastOpened, received, shut⟩ := w
  obtain rfl : shut = stopped := h.shut
  obtain rfl : received = lastEventId := h.received
  cases hanswered with
  | opened attempt =>
    obtain ⟨hle, -⟩ := h.waiting attempt (.inl rfl)
    refine ⟨rfl, rfl, fun attempt' h' ↦ ?_, fun attempt' h' ↦ ?_⟩
    · rcases h' with h' | h' <;> cases h'
    · cases h'
      refine ⟨?_, hle, rfl, rfl⟩
      -- a stream that is opened once the transport is shut is not what the move must be like
      cases shut with
      | true => exact absurd rfl (hmove.released rfl attempt)
      | false => rfl
  | failed attempt =>
    obtain ⟨hle, hsince⟩ := h.waiting attempt (.inl rfl)
    refine counted_afterSchedule (t := ⟨shut, received, .opening attempt⟩) ?_
    cases lastOpened with
    | none => exact congrArg (· + 1) hsince
    | some last =>
      have heq : failures + last + 1 = attempt := hsince
      change failures + 1 + last + 1 = attempt + 1
      omega
  | event id attempt =>
    obtain ⟨hover, hle, hfailures, hlast⟩ := h.connected attempt rfl
    cases id with
    | none => exact h
    | some id =>
      refine ⟨rfl, rfl, fun attempt' h' ↦ ?_, fun attempt' h' ↦ ?_⟩
      · rcases h' with h' | h' <;> cases h'
      · cases h'
        exact ⟨hover, hle, hfailures, hlast⟩
  | ended attempt => exact counted_idle rfl rfl rfl
  | dropped attempt =>
    obtain ⟨-, -, hfailures, hlast⟩ := h.connected attempt rfl
    refine counted_afterSchedule (t := ⟨shut, received, .connected attempt⟩) ?_
    obtain rfl : lastOpened = some attempt := hlast
    obtain rfl : failures = 0 := hfailures
    change 0 + attempt + 1 = attempt + 1
    omega
  | woke attempt =>
    cases shut with
    | true => exact counted_idle rfl rfl rfl
    | false =>
      obtain ⟨hle, hsince⟩ := h.waiting attempt (.inr rfl)
      exact counted_sleeping rfl rfl (.inr rfl) hle hsince
  | aborted attempt => exact counted_idle rfl rfl rfl
  | close stream =>
    cases stream with
    | idle => exact counted_idle rfl rfl rfl
    | connected attempt => exact counted_idle rfl rfl rfl
    | opening attempt =>
      obtain ⟨hle, hsince⟩ := h.waiting attempt (.inl rfl)
      exact counted_sleeping rfl rfl (.inr rfl) hle hsince
    | sleeping attempt =>
      obtain ⟨hle, hsince⟩ := h.waiting attempt (.inr rfl)
      exact counted_sleeping rfl rfl (.inl rfl) hle hsince

theorem Counted.released (h : Counted maxAttempts w) (hover : w.shut = true) (attempt : ℕ) :
    w.transport.stream ≠ .connected attempt := fun hs ↦
  Bool.false_ne_true ((h.connected attempt hs).1.symm.trans hover)

/-- Closing the transport closes its stream, and opens none. -/
theorem close_spec (t : HttpTransport) :
    (∀ action ∈ t.close.2, action = .closeSse ∨ action = .emitClose none) ∧
      ∀ attempt, t.close.1.stream ≠ .connected attempt := by
  obtain ⟨stopped, lastEventId, stream⟩ := t
  cases stream with
  | connected attempt => exact ⟨by simp [HttpTransport.close], fun _ h ↦ by cases h⟩
  | _ => exact ⟨by simp [HttpTransport.close], fun _ h ↦ by cases h⟩

theorem steady_of_ne {move : TransportMove} (hfailed : move ≠ .failed) (hdropped : move ≠ .dropped)
    (hopened : move ≠ .opened) : Steady maxAttempts move w := by
  refine ⟨fun hex ↦ ?_, fun hmove ↦ absurd hmove hopened⟩
  rcases hex.2 with ⟨hmove, -⟩ | ⟨hmove, -⟩
  · exact absurd hmove hfailed
  · exact absurd hmove hdropped

/-- A move at which the transport does nothing is as it must be, if it leaves no stream open. -/
theorem reconnects_of_nil {move : TransportMove} (hnil : w.actions maxAttempts move = [])
    (hreleased : (w.watch maxAttempts move).shut = true →
      ∀ attempt, (w.watch maxAttempts move).transport.stream ≠ .connected attempt) :
    Reconnects maxAttempts move w :=
  ⟨by simp [hnil], by simp [hnil], by simp [hnil], hreleased⟩

/-- A move that is not answered does no harm. -/
theorem reconnects_of_not_answered {move : TransportMove} (h : Counted maxAttempts w)
    (hmove : ¬ Answered move w.transport.stream) :
    Reconnects maxAttempts move w ∧ Steady maxAttempts move w := by
  obtain ⟨hnil, heq⟩ := (answered_or maxAttempts move w).resolve_left hmove
  refine ⟨reconnects_of_nil hnil ?_, fun hex ↦ ?_, ?_⟩
  · rw [heq]
    exact h.released
  · rcases hex.2 with ⟨rfl, hs⟩ | ⟨rfl, hs⟩
    · exact absurd (hs ▸ .failed _) hmove
    · exact absurd (hs ▸ .dropped _) hmove
  · rintro rfl attempt hs
    exact absurd (hs ▸ .opened _) hmove

/-- **A move is as it must be** if and only if it is steady. -/
theorem reconnects_iff_steady {move : TransportMove} (h : Counted maxAttempts w) :
    Reconnects maxAttempts move w ↔ Steady maxAttempts move w := by
  by_cases hanswered : Answered move w.transport.stream
  swap
  · exact iff_of_true (reconnects_of_not_answered h hanswered).1
      (reconnects_of_not_answered h hanswered).2
  obtain ⟨⟨stopped, lastEventId, stream⟩, failures, lastOpened, received, shut⟩ := w
  obtain rfl : shut = stopped := h.shut
  obtain rfl : received = lastEventId := h.received
  cases hanswered with
  | opened attempt =>
    constructor
    · intro hmove
      refine ⟨fun hex ↦ ?_, fun _ _ _ ↦ ?_⟩
      · rcases hex.2 with ⟨hmove, -⟩ | ⟨hmove, -⟩ <;> cases hmove
      · cases shut with
        | true => exact absurd rfl (hmove.released rfl attempt)
        | false => rfl
    · intro hsteady
      have hover : shut = false := hsteady.timely rfl attempt rfl
      exact reconnects_of_nil rfl fun hover' ↦
        absurd (hover.symm.trans hover') Bool.false_ne_true
  | failed attempt =>
    obtain ⟨hle, hsince⟩ := h.waiting attempt (.inl rfl)
    constructor
    · intro hmove
      refine ⟨fun hex last hlast ↦ ?_, fun heq ↦ by cases heq⟩
      obtain rfl : attempt = maxAttempts := by
        rcases hex.2 with ⟨-, hs⟩ | ⟨hmove, -⟩
        · cases hs
          rfl
        · cases hmove
      obtain rfl : lastOpened = some last := hlast
      have hcount : failures + last + 1 = attempt := hsince
      have hall : attempt ≤ failures + 1 :=
        hmove.exhausted attempt (gives_up_iff.mpr ⟨hex.1, Nat.lt_succ_self _, rfl⟩)
      omega
    · intro hsteady
      refine ⟨fun n hn ↦ ?_, fun id hid ↦ absurd hid (openSse_not_mem_schedule id),
        fun _ ↦ openSse_not_mem_schedule, fun _ ↦ stream_schedule_ne⟩
      obtain ⟨hover, hlt, -⟩ := gives_up_iff.mp hn
      obtain rfl : attempt = maxAttempts := Nat.le_antisymm hle (Nat.lt_succ_iff.mp hlt)
      change attempt ≤ failures + 1
      cases lastOpened with
      | none => exact Nat.le_succ_of_le (Nat.le_of_eq (Eq.symm hsince))
      | some last =>
        have hlast : last = 0 := hsteady.exhausts ⟨hover, .inl ⟨rfl, rfl⟩⟩ last rfl
        have hcount : failures + last + 1 = attempt := hsince
        omega
  | dropped attempt =>
    obtain ⟨-, hle, hfailures, hlast⟩ := h.connected attempt rfl
    constructor
    · intro hmove
      refine ⟨fun hex last hlast' ↦ ?_, fun heq ↦ by cases heq⟩
      obtain rfl : attempt = maxAttempts := by
        rcases hex.2 with ⟨hmove, -⟩ | ⟨-, hs⟩
        · cases hmove
        · cases hs
          rfl
      have hall : attempt ≤ failures :=
        hmove.exhausted attempt (gives_up_iff.mpr ⟨hex.1, Nat.lt_succ_self _, rfl⟩)
      have heq : attempt = last := Option.some.inj (hlast.symm.trans hlast')
      have hzero : failures = 0 := hfailures
      omega
    · intro hsteady
      refine ⟨fun n hn ↦ ?_, fun id hid ↦ absurd hid (openSse_not_mem_schedule id),
        fun _ ↦ openSse_not_mem_schedule, fun _ ↦ stream_schedule_ne⟩
      obtain ⟨hover, hlt, -⟩ := gives_up_iff.mp hn
      obtain rfl : attempt = maxAttempts := Nat.le_antisymm hle (Nat.lt_succ_iff.mp hlt)
      rw [hsteady.exhausts ⟨hover, .inr ⟨rfl, rfl⟩⟩ attempt hlast]
      exact Nat.zero_le _
  | event id attempt =>
    refine iff_of_true (reconnects_of_nil rfl fun hover ↦ ?_)
      (steady_of_ne (by simp) (by simp) (by simp))
    exact absurd ((h.connected attempt rfl).1.symm.trans hover) Bool.false_ne_true
  | ended attempt =>
    refine iff_of_true (reconnects_of_nil rfl fun _ attempt' hs ↦ ?_)
      (steady_of_ne (by simp) (by simp) (by simp))
    cases hs
  | woke attempt =>
    refine iff_of_true ?_ (steady_of_ne (by simp) (by simp) (by simp))
    cases shut with
    | true =>
      refine reconnects_of_nil rfl fun _ attempt' hs ↦ ?_
      cases hs
    | false =>
      refine ⟨fun n hn ↦ ?_, fun id hid ↦ ?_, fun hover ↦ ?_, fun hover ↦ ?_⟩
      · exact absurd (List.mem_singleton.mp hn) (by simp)
      · cases List.mem_singleton.mp hid
        rfl
      · exact absurd hover Bool.false_ne_true
      · exact absurd hover Bool.false_ne_true
  | aborted attempt =>
    refine iff_of_true (reconnects_of_nil rfl fun _ attempt' hs ↦ ?_)
      (steady_of_ne (by simp) (by simp) (by simp))
    cases hs
  | close stream =>
    refine iff_of_true ?_ (steady_of_ne (by simp) (by simp) (by simp))
    obtain ⟨hclosed, hstream⟩ := close_spec ⟨shut, received, stream⟩
    refine ⟨fun n hn ↦ ?_, fun id hid ↦ ?_, fun _ id hid ↦ ?_, fun _ ↦ hstream⟩
    · rcases hclosed _ hn with heq | heq <;> cases heq
    · rcases hclosed _ hid with heq | heq <;> cases heq
    · rcases hclosed _ hid with heq | heq <;> cases heq

/-- **The transport does what it is for**, move by move, if and only if it never gives up once a
retry has succeeded and no open call succeeds too late. -/
theorem reconnects_iff (maxAttempts : ℕ) (moves : List TransportMove) :
    Along (watch maxAttempts) (Reconnects maxAttempts) moves start ↔
      Along (watch maxAttempts) (Steady maxAttempts) moves start :=
  along_iff_along (fun _ _ h hmove ↦ counted_watch h hmove) (fun _ _ h ↦ reconnects_iff_steady h)
    moves counted_start

/-- **A stream that a retry has opened drops**, and the transport gives up without another try. -/
theorem not_reconnects_second_drop : ¬∀ (maxAttempts : ℕ) (moves : List TransportMove),
    Along (watch maxAttempts) (Reconnects maxAttempts) moves start := by
  intro h
  have hlast := (h 1 [.opened, .dropped, .woke, .opened, .dropped]).2.2.2.2.1
  have hfailed : 1 ≤ _ := hlast.exhausted 1 (by decide)
  exact absurd hfailed (by decide)

end WatchedTransport

end QwenHarness.Mcp
