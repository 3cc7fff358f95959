import Mathlib.Algebra.Group.Int.Defs
import QwenHarness.Run.Along
import QwenHarness.Table.Accounted
import QwenHarness.Table.Assoc

/-!
# Requests and their responses

A peer sends each request under a new id and keeps what waits for the answer in a map. A response
takes its request out of the map. So do the end of the time a request has, an abort, a send that
fails and the end of the channel, whichever of them is first.

The map is what keeps them apart. A request is in it exactly while it is not settled, and its timer
runs only as long, so it is settled once, and with the content of a response only if the response is
its own (`correlated_run`).
-/

namespace QwenHarness.Mcp

open Run

variable {V E : Type}

/-! ## Messages -/

inductive JsonRpcId
  | string (s : String)
  | number (n : ℤ)
deriving DecidableEq, Repr

structure JsonRpcErrorObject (V : Type) where
  code : ℤ
  message : String
  data : Option V
deriving DecidableEq, Repr

structure JsonRpcRequest (V : Type) where
  id : JsonRpcId
  method : String
  params : Option V
deriving DecidableEq, Repr

structure JsonRpcNotification (V : Type) where
  method : String
  params : Option V
deriving DecidableEq, Repr

/-- A response carries exactly one of a result and an error. -/
structure JsonRpcResponse (V : Type) where
  id : JsonRpcId
  result : Option V
  error : Option (JsonRpcErrorObject V)
  one : result.isSome ≠ error.isSome
deriving DecidableEq, Repr

inductive JsonRpcSingleMessage (V : Type)
  | request (request : JsonRpcRequest V)
  | notification (notification : JsonRpcNotification V)
  | response (response : JsonRpcResponse V)
deriving DecidableEq, Repr

/-- A frame is a message or a batch of them. -/
inductive JsonRpcMessage (V : Type)
  | single (message : JsonRpcSingleMessage V)
  | batch (messages : List (JsonRpcSingleMessage V))
deriving DecidableEq, Repr

def JsonRpcMessage.members : JsonRpcMessage V → List (JsonRpcSingleMessage V)
  | single message => [message]
  | batch messages => messages

/-! ## How a request ends -/

inductive McpErrorClass
  | connection
  | timeout
  | cancelled
deriving DecidableEq, Repr

/-- What a request is rejected with: an error of this side, the error object of a response, or an
error of the channel. -/
inductive PeerError (V E : Type)
  | mcp (cls : McpErrorClass) (message : String)
  | call (code : ℤ) (message : String) (data : Option V)
  | thrown (error : E)
deriving DecidableEq, Repr

/-- What a request's promise is settled with. -/
inductive RequestOutcome (V E : Type)
  | resolved (result : Option V)
  | rejected (error : PeerError V E)
deriving DecidableEq, Repr

/-- What settles a request. A response is told from others by how many came before it. -/
inductive SettledBy
  | response (n : ℕ)
  | timeout
  | abort
  | send
  | close
deriving DecidableEq, Repr

structure Settlement (V E : Type) where
  id : JsonRpcId
  outcome : RequestOutcome V E
  cause : SettledBy
deriving DecidableEq, Repr

/-- The content of a response. -/
def JsonRpcResponse.outcome (response : JsonRpcResponse V) : RequestOutcome V E :=
  match response.error with
  | some error => .rejected (.call error.code error.message error.data)
  | none => .resolved response.result

/-- Whether a promise is settled with the content of a response. -/
def RequestOutcome.isContent : RequestOutcome V E → Bool
  | resolved _ => true
  | rejected (.call _ _ _) => true
  | rejected (.mcp _ _) => false
  | rejected (.thrown _) => false

/-! ## The peer -/

/-- What waits for an answer, with the time it has if it has a timer. -/
structure Pending where
  method : String
  timer : Option ℕ
deriving DecidableEq, Repr

/-- The peer, with what it has set going: timers, abort listeners and sends, each with the request
it is for. What is known of it from outside are the ids it has drawn, the frames it has sent, the
responses it was given, and how its requests ended, in order. -/
structure JsonRpcPeer (V E : Type) where
  pending : List (JsonRpcId × Pending) := []
  closed : Bool := false
  closeError : Option (PeerError V E) := none
  timers : List (JsonRpcId × Pending) := []
  listeners : List (JsonRpcId × Pending) := []
  sends : List (JsonRpcId × Pending) := []
  issued : List JsonRpcId := []
  sent : List (JsonRpcSingleMessage V) := []
  received : List (JsonRpcResponse V) := []
  settled : List (Settlement V E) := []
  refused : List (PeerError V E) := []
deriving DecidableEq, Repr

structure RequestOptions where
  timeoutMs : Option ℕ := none
  signal : Bool := false
deriving DecidableEq, Repr

/-- A call that is made on the peer. -/
inductive PeerCall (V : Type)
  | request (method : String) (params : Option V) (opts : RequestOptions)
  | notify (method : String) (params : Option V)
  /-- The signal of a request is aborted. -/
  | abort (id : JsonRpcId)
deriving DecidableEq, Repr

/-- What the handlers do at once is to make calls on the peer. What they do later are moves of their
own. -/
structure PeerHandlers (V : Type) where
  onRequest : Option (String → Option V → JsonRpcId → List (PeerCall V)) := none
  onNotification : Option (String → Option V → List (PeerCall V)) := none

/-- Why a send failed: an error, or something else that was thrown. -/
inductive SendFailure (E : Type)
  | error (error : E)
  | other (text : String)
deriving DecidableEq, Repr

/-- What happens to the peer. -/
inductive PeerMove (V E : Type)
  | call (call : PeerCall V)
  | receive (message : JsonRpcMessage V)
  /-- The answer of a request handler is sent. -/
  | answer (response : JsonRpcResponse V)
  /-- The time of a request is over. -/
  | expire (id : JsonRpcId)
  | sent (id : JsonRpcId)
  | sendFailed (id : JsonRpcId) (failure : SendFailure E)
  | close (error : Option E)
deriving DecidableEq, Repr

/-- Take what is under an id out of a map. -/
def without (id : JsonRpcId) (entries : List (JsonRpcId × Pending)) : List (JsonRpcId × Pending) :=
  entries.filter fun entry ↦ decide (entry.1 ≠ id)

namespace JsonRpcPeer

variable (p : JsonRpcPeer V E)

/-- The request leaves the map, its timer is cleared, and its promise is settled. -/
def finish (id : JsonRpcId) (pending : Pending) (outcome : RequestOutcome V E) (cause : SettledBy) :
    JsonRpcPeer V E :=
  { p with
    pending := without id p.pending
    timers := if pending.timer.isSome then without id p.timers else p.timers
    settled := p.settled ++ [⟨id, outcome, cause⟩] }

/-- Only a request that is still in the map is finished. -/
def finishIfPending (id : JsonRpcId) (pending : Pending) (outcome : RequestOutcome V E)
    (cause : SettledBy) : JsonRpcPeer V E :=
  if (p.pending.lookup id).isSome then p.finish id pending outcome cause else p

def request (nextId : ℕ → JsonRpcId) (method : String) (params : Option V) (opts : RequestOptions) :
    JsonRpcPeer V E :=
  if p.closed then
    { p with
      refused := p.refused ++ [p.closeError.getD (.mcp .connection "peer is closed")] }
  else
    let id := nextId p.issued.length
    let pending : Pending := ⟨method, opts.timeoutMs⟩
    { p with
      issued := p.issued ++ [id]
      timers := if opts.timeoutMs.isSome then p.timers ++ [(id, pending)] else p.timers
      listeners := if opts.signal then p.listeners ++ [(id, pending)] else p.listeners
      pending := Assoc.alter id (fun _ ↦ pending) p.pending
      sent := p.sent ++ [.request ⟨id, method, params⟩]
      sends := p.sends ++ [(id, pending)] }

def notify (method : String) (params : Option V) : JsonRpcPeer V E :=
  if p.closed then p else { p with sent := p.sent ++ [.notification ⟨method, params⟩] }

def abort (id : JsonRpcId) : JsonRpcPeer V E :=
  match p.listeners.lookup id with
  | none => p
  | some pending =>
    { p with listeners := without id p.listeners }.finishIfPending id pending
      (.rejected (.mcp .cancelled ("request \"" ++ pending.method ++ "\" was cancelled"))) .abort

def call (nextId : ℕ → JsonRpcId) : PeerCall V → JsonRpcPeer V E
  | .request method params opts => p.request nextId method params opts
  | .notify method params => p.notify method params
  | .abort id => p.abort id

def timedOut (pending : Pending) : PeerError V E :=
  .mcp .timeout ("request \"" ++ pending.method ++ "\" timed out after " ++
    toString (pending.timer.getD 0) ++ "ms")

/-- The timer has run off, so it need not be cleared; and the promise is settled whether or not the
request is in the map. -/
def expire (id : JsonRpcId) : JsonRpcPeer V E :=
  match p.timers.lookup id with
  | none => p
  | some pending =>
    { p with
      timers := without id p.timers
      pending := without id p.pending
      settled := p.settled ++ [⟨id, .rejected (timedOut pending), .timeout⟩] }

def sendError : SendFailure E → PeerError V E
  | .error error => .thrown error
  | .other text => .mcp .connection text

def sendFailed (id : JsonRpcId) (failure : SendFailure E) : JsonRpcPeer V E :=
  match p.sends.lookup id with
  | none => p
  | some pending =>
    { p with sends := without id p.sends }.finishIfPending id pending
      (.rejected (sendError failure)) .send

/-- A response for an unknown id, one that is late or comes again, is dropped. -/
def settle (response : JsonRpcResponse V) : JsonRpcPeer V E :=
  let received := { p with received := p.received ++ [response] }
  match p.pending.lookup response.id with
  | none => received
  | some pending =>
    received.finish response.id pending response.outcome (.response p.received.length)

def methodNotFound (request : JsonRpcRequest V) : JsonRpcResponse V where
  id := request.id
  result := none
  error := some ⟨-32601, "method not found: " ++ request.method, none⟩
  one := Bool.false_ne_true

def dispatchRequest (handlers : PeerHandlers V) (nextId : ℕ → JsonRpcId)
    (request : JsonRpcRequest V) : JsonRpcPeer V E :=
  match handlers.onRequest with
  | none => { p with sent := p.sent ++ [.response (methodNotFound request)] }
  | some handler =>
    (handler request.method request.params request.id).foldl (fun p call ↦ p.call nextId call) p

def dispatchNotification (handlers : PeerHandlers V) (nextId : ℕ → JsonRpcId)
    (notification : JsonRpcNotification V) : JsonRpcPeer V E :=
  match handlers.onNotification with
  | none => p
  | some handler =>
    (handler notification.method notification.params).foldl (fun p call ↦ p.call nextId call) p

def deliver (handlers : PeerHandlers V) (nextId : ℕ → JsonRpcId) :
    JsonRpcSingleMessage V → JsonRpcPeer V E
  | .response response => p.settle response
  | .request request => p.dispatchRequest handlers nextId request
  | .notification notification => p.dispatchNotification handlers nextId notification

/-- A batch is handled member by member. -/
def receive (handlers : PeerHandlers V) (nextId : ℕ → JsonRpcId) (message : JsonRpcMessage V) :
    JsonRpcPeer V E :=
  message.members.foldl (fun p m ↦ p.deliver handlers nextId m) p

def closeReason (error : Option E) : PeerError V E :=
  match error with
  | some error => .thrown error
  | none => .mcp .connection "peer channel closed"

def onClose (error : Option E) : JsonRpcPeer V E :=
  if p.closed then p
  else
    p.pending.foldl
      (fun p entry ↦ p.finish entry.1 entry.2 (.rejected (closeReason error)) .close)
      { p with closed := true, closeError := some (closeReason error) }

/-- What happens to a peer changes it. -/
def step (handlers : PeerHandlers V) (nextId : ℕ → JsonRpcId) (move : PeerMove V E)
    (p : JsonRpcPeer V E) : JsonRpcPeer V E :=
  match move with
  | .call call => p.call nextId call
  | .receive message => p.receive handlers nextId message
  | .answer response => { p with sent := p.sent ++ [.response response] }
  | .expire id => p.expire id
  | .sent id => { p with sends := without id p.sends }
  | .sendFailed id failure => p.sendFailed id failure
  | .close error => p.onClose error

/-- The ids in the map, and the ids of the requests that are settled. -/
def pendingIds : List JsonRpcId := p.pending.map Prod.fst

def settledIds : List JsonRpcId := p.settled.map Settlement.id

/-- What is promised of a peer's requests. -/
structure Correlated : Prop where
  nodup_issued : p.issued.Nodup
  /-- No promise is settled twice. -/
  settled_once : p.settledIds.Nodup
  /-- With the content of a response only if the response carries its id. -/
  own : ∀ s ∈ p.settled, s.outcome.isContent = true →
    ∃ n response, s.cause = .response n ∧ p.received[n]? = some response ∧
      response.id = s.id ∧ s.outcome = response.outcome
  /-- No response settles two requests. -/
  response_once : p.settled.Pairwise fun s t ↦ ∀ n, s.cause = .response n → t.cause ≠ .response n
  /-- A request is in the map exactly while it is unsettled. -/
  pending_iff : ∀ id, id ∈ p.pendingIds ↔ id ∈ p.issued ∧ id ∉ p.settledIds
  /-- The timer of a request runs exactly while it is unsettled. -/
  timer_iff : ∀ id pending,
    (id, pending) ∈ p.timers ↔ (id, pending) ∈ p.pending ∧ pending.timer.isSome = true
  /-- After the close, every request is settled. -/
  settled_of_closed : p.closed = true → ∀ id ∈ p.issued, id ∈ p.settledIds

variable {p} {handlers : PeerHandlers V} {nextId : ℕ → JsonRpcId} {id : JsonRpcId}
  {pending : Pending} {outcome : RequestOutcome V E} {cause : SettledBy}

/-! ## Maps -/

theorem mem_without {entries : List (JsonRpcId × Pending)} {entry : JsonRpcId × Pending} :
    entry ∈ without id entries ↔ entry ∈ entries ∧ entry.1 ≠ id := by
  rw [without, List.mem_filter, decide_eq_true_iff]

theorem mem_of_lookup {entries : List (JsonRpcId × Pending)}
    (h : entries.lookup id = some pending) : (id, pending) ∈ entries := by
  obtain ⟨before, after, rfl, -⟩ := List.lookup_eq_some_iff.mp h
  exact List.mem_append_right before List.mem_cons_self

theorem exists_mem_of_lookup {entries : List (JsonRpcId × Pending)}
    (h : (entries.lookup id).isSome = true) : ∃ pending, (id, pending) ∈ entries := by
  obtain ⟨pending, h⟩ := Option.isSome_iff_exists.mp h
  exact ⟨pending, mem_of_lookup h⟩

theorem map_fst_without {entries : List (JsonRpcId × Pending)}
    (h : (entries.map Prod.fst).Nodup) :
    (without id entries).map Prod.fst = (entries.map Prod.fst).erase id := by
  rw [h.erase_eq_filter, List.filter_map, without]
  refine congrArg (List.map Prod.fst) (List.filter_congr fun entry _ ↦ ?_)
  rw [Function.comp_apply, bne, decide_not, beq_eq_decide]

/-! ## The invariant -/

/-- An entry of a timer, a listener or a send is that of the request in the map, as long as that one
is there. -/
def Matches (p : JsonRpcPeer V E) (entries : List (JsonRpcId × Pending)) : Prop :=
  ∀ entry ∈ entries, entry.1 ∈ p.issued ∧
    ∀ pending, (entry.1, pending) ∈ p.pending → pending = entry.2

/-- What every step keeps. -/
structure Inv (nextId : ℕ → JsonRpcId) (p : JsonRpcPeer V E) : Prop where
  issued : ∀ id ∈ p.issued, ∃ n < p.issued.length, id = nextId n
  accounted : Accounted p.issued p.pendingIds p.settledIds
  timer_iff : ∀ id pending,
    (id, pending) ∈ p.timers ↔ (id, pending) ∈ p.pending ∧ pending.timer.isSome = true
  listeners : p.Matches p.listeners
  sends : p.Matches p.sends
  caused : ∀ s ∈ p.settled, ∀ n, s.cause = .response n →
    ∃ response, p.received[n]? = some response ∧ response.id = s.id ∧ s.outcome = response.outcome
  content : ∀ s ∈ p.settled, s.outcome.isContent = true → ∃ n, s.cause = .response n
  response_once : p.settled.Pairwise fun s t ↦ ∀ n, s.cause = .response n → t.cause ≠ .response n
  pending_of_closed : p.closed = true → p.pending = []

theorem inv_init : Inv nextId ({} : JsonRpcPeer V E) where
  issued := List.forall_mem_nil _
  accounted := .nil
  timer_iff _ _ := ⟨fun h ↦ absurd h List.not_mem_nil, fun h ↦ absurd h.1 List.not_mem_nil⟩
  listeners := List.forall_mem_nil _
  sends := List.forall_mem_nil _
  caused := List.forall_mem_nil _
  content := List.forall_mem_nil _
  response_once := .nil
  pending_of_closed _ := rfl

theorem Inv.correlated (h : Inv nextId p) : p.Correlated where
  nodup_issued := h.accounted.nodup
  settled_once := h.accounted.nodup_settled
  own s hs hcontent := by
    obtain ⟨n, hn⟩ := h.content s hs hcontent
    obtain ⟨response, hresponse⟩ := h.caused s hs n hn
    exact ⟨n, response, hn, hresponse⟩
  response_once := h.response_once
  pending_iff _ := h.accounted.mem_pending_iff
  timer_iff := h.timer_iff
  settled_of_closed hclosed id hid := by
    have haccounted := h.accounted
    rw [pendingIds, h.pending_of_closed hclosed] at haccounted
    exact haccounted.mem_settled_of_closed hid

theorem Inv.eq_of_mem (h : Inv nextId p) {pending' : Pending} (hmem : (id, pending) ∈ p.pending)
    (hmem' : (id, pending') ∈ p.pending) : pending' = pending := by
  have heq := List.inj_on_of_nodup_map h.accounted.nodup_pending hmem' hmem rfl
  exact congrArg Prod.snd heq

/-! ## What settles a request -/

/-- A settlement is in order if, where a response is its cause, it is the response's own, and no
other request has been settled with it. -/
structure Settles (p : JsonRpcPeer V E) (id : JsonRpcId) (outcome : RequestOutcome V E)
    (cause : SettledBy) : Prop where
  caused : ∀ n, cause = .response n →
    ∃ response, p.received[n]? = some response ∧ response.id = id ∧ outcome = response.outcome
  content : outcome.isContent = true → ∃ n, cause = .response n
  unused : ∀ n, cause = .response n → ∀ s ∈ p.settled, s.cause ≠ .response n

/-- What is not caused by a response, and has nothing of one. -/
theorem settles_of_ne (hcause : ∀ n, cause ≠ .response n) (hcontent : outcome.isContent = false) :
    Settles p id outcome cause where
  caused n hn := absurd hn (hcause n)
  content h := absurd (hcontent.symm.trans h) Bool.false_ne_true
  unused n hn := absurd hn (hcause n)

theorem mem_timers_finish (h : Inv nextId p) (hmem : (id, pending) ∈ p.pending)
    (entry : JsonRpcId × Pending) : entry ∈ (p.finish id pending outcome cause).timers ↔
      entry ∈ p.timers ∧ entry.1 ≠ id := by
  by_cases htimer : pending.timer.isSome = true
  · rw [finish, if_pos htimer, mem_without]
  · rw [finish, if_neg htimer]
    constructor
    · refine fun hentry ↦ ⟨hentry, fun hid ↦ htimer ?_⟩
      obtain ⟨id', pending'⟩ := entry
      obtain rfl : id' = id := hid
      have hboth := (h.timer_iff _ _).mp hentry
      rw [← h.eq_of_mem hmem hboth.1]
      exact hboth.2
    · exact fun hentry ↦ hentry.1

theorem Matches.of_subset {q : JsonRpcPeer V E} {entries entries' : List (JsonRpcId × Pending)}
    (h : p.Matches entries) (hentries : ∀ entry ∈ entries', entry ∈ entries)
    (hissued : q.issued = p.issued) (hpending : ∀ entry ∈ q.pending, entry ∈ p.pending) :
    q.Matches entries' := by
  refine fun entry hentry ↦ ⟨?_, fun pending hmem ↦ ?_⟩
  · rw [hissued]
    exact (h entry (hentries entry hentry)).1
  · exact (h entry (hentries entry hentry)).2 pending (hpending _ hmem)

/-- **A request that is in the map can be finished.** -/
theorem Inv.finish (h : Inv nextId p) (hmem : (id, pending) ∈ p.pending)
    (hsettles : Settles p id outcome cause) : Inv nextId (p.finish id pending outcome cause) where
  issued := h.issued
  accounted := by
    have hid : id ∈ p.pendingIds := List.mem_map_of_mem hmem
    have hclose := h.accounted.close hid
    have hpending : (p.finish id pending outcome cause).pendingIds = p.pendingIds.erase id :=
      map_fst_without h.accounted.nodup_pending
    have hsettled : (p.finish id pending outcome cause).settledIds = p.settledIds ++ [id] :=
      List.map_append
    rw [hpending, hsettled]
    exact hclose
  timer_iff id' pending' := by
    have hpending : (p.finish id pending outcome cause).pending = without id p.pending := rfl
    rw [mem_timers_finish h hmem, h.timer_iff, hpending, mem_without, and_right_comm]
  listeners :=
    h.listeners.of_subset (fun _ hentry ↦ hentry) rfl fun _ hentry ↦ (mem_without.mp hentry).1
  sends := h.sends.of_subset (fun _ hentry ↦ hentry) rfl fun _ hentry ↦ (mem_without.mp hentry).1
  caused := List.forall_mem_append.mpr ⟨h.caused, List.forall_mem_singleton.mpr hsettles.caused⟩
  content := List.forall_mem_append.mpr ⟨h.content, List.forall_mem_singleton.mpr hsettles.content⟩
  response_once := by
    refine List.pairwise_append.mpr ⟨h.response_once, List.pairwise_singleton _ _, ?_⟩
    refine fun s hs t ht n hn hcause ↦ ?_
    rw [List.mem_singleton.mp ht] at hcause
    exact hsettles.unused n hcause s hs hn
  pending_of_closed hclosed := by
    have hnil := h.pending_of_closed hclosed
    rw [hnil] at hmem
    exact absurd hmem List.not_mem_nil

theorem Inv.finishIfPending (h : Inv nextId p)
    (hmatch : ∀ pending', (id, pending') ∈ p.pending → pending' = pending)
    (hsettles : Settles p id outcome cause) :
    Inv nextId (p.finishIfPending id pending outcome cause) := by
  rw [JsonRpcPeer.finishIfPending]
  split
  · next hsome =>
    obtain ⟨pending', hmem⟩ := exists_mem_of_lookup hsome
    rw [hmatch pending' hmem] at hmem
    exact h.finish hmem hsettles
  · exact h

/-! ## What a call does -/

/-- A fresh id has not been drawn yet. -/
theorem Inv.next_not_mem (h : Inv nextId p) (hfresh : Function.Injective nextId) :
    nextId p.issued.length ∉ p.issued := by
  intro hmem
  obtain ⟨n, hn, heq⟩ := h.issued _ hmem
  exact absurd (hfresh heq) (Nat.ne_of_gt hn)

theorem Matches.issue {q : JsonRpcPeer V E} {entries : List (JsonRpcId × Pending)}
    (h : p.Matches entries) (hid : id ∉ p.issued) (hpending : id ∉ p.pendingIds)
    (hissued : q.issued = p.issued ++ [id]) (hmap : q.pending = p.pending ++ [(id, pending)]) :
    q.Matches (entries ++ [(id, pending)]) := by
  refine List.forall_mem_append.mpr ⟨fun entry hentry ↦ ?_, List.forall_mem_singleton.mpr ?_⟩
  · obtain ⟨hmem, hmatch⟩ := h entry hentry
    rw [hissued, hmap]
    refine ⟨List.mem_append_left _ hmem, fun pending' hpending' ↦ ?_⟩
    rcases List.mem_append.mp hpending' with hold | hnew
    · exact hmatch pending' hold
    · have heq : entry.1 = id := congrArg Prod.fst (List.mem_singleton.mp hnew)
      rw [heq] at hmem
      exact absurd hmem hid
  · rw [hissued, hmap]
    refine ⟨List.mem_append_right _ List.mem_cons_self, fun pending' hpending' ↦ ?_⟩
    rcases List.mem_append.mp hpending' with hold | hnew
    · exact absurd (List.mem_map_of_mem hold) hpending
    · exact congrArg Prod.snd (List.mem_singleton.mp hnew)

/-- Where an entry may be added or not, what holds with it holds. -/
theorem Matches.ite {c : Bool} {entries : List (JsonRpcId × Pending)}
    {entry : JsonRpcId × Pending} (h : p.Matches (entries ++ [entry])) :
    p.Matches (if c then entries ++ [entry] else entries) := by
  cases c with
  | false => exact fun e he ↦ h e (List.mem_append_left _ he)
  | true => exact h

theorem Inv.request (h : Inv nextId p) (hfresh : Function.Injective nextId) (method : String)
    (params : Option V) (opts : RequestOptions) :
    Inv nextId (p.request nextId method params opts) := by
  rw [JsonRpcPeer.request]
  split
  · exact { h with }
  · next hopen =>
    have hnew := h.next_not_mem hfresh
    have hpending : nextId p.issued.length ∉ p.pendingIds :=
      fun hmem ↦ hnew (h.accounted.mem_issued.mpr (.inl hmem))
    have halter : ∀ pending : Pending,
        Assoc.alter (nextId p.issued.length) (fun _ ↦ pending) p.pending =
          p.pending ++ [(nextId p.issued.length, pending)] :=
      fun _ ↦ Assoc.alter_of_not_mem hpending
    have hids : ∀ pending : Pending,
        (p.pending ++ [(nextId p.issued.length, pending)]).map Prod.fst =
          p.pendingIds ++ [nextId p.issued.length] := fun _ ↦ List.map_append
    have hissue := h.accounted.issue hnew
    simp only [halter]
    refine ⟨?_, ?_, ?_, (h.listeners.issue hnew hpending rfl rfl).ite,
      h.sends.issue hnew hpending rfl rfl, h.caused, h.content, h.response_once,
      fun hclosed ↦ absurd hclosed hopen⟩
    · refine List.forall_mem_append.mpr ⟨fun id hid ↦ ?_, List.forall_mem_singleton.mpr ?_⟩
      · obtain ⟨n, hn, heq⟩ := h.issued id hid
        exact ⟨n, by rw [List.length_append]; exact Nat.lt_add_right _ hn, heq⟩
      · exact ⟨p.issued.length, by rw [List.length_append]; exact Nat.lt_add_one _, rfl⟩
    · rw [pendingIds, hids]
      exact hissue
    · intro id pending
      have hiff : (id, pending) ∈ [(nextId p.issued.length, (⟨method, opts.timeoutMs⟩ : Pending))] ∧
          pending.timer.isSome = true ↔ opts.timeoutMs.isSome = true ∧
            (id, pending) = (nextId p.issued.length, ⟨method, opts.timeoutMs⟩) := by
        rw [List.mem_singleton, and_comm]
        refine and_congr_left fun heq ↦ ?_
        obtain ⟨rfl, rfl⟩ := Prod.mk.inj heq
        rfl
      rw [List.mem_append, or_and_right, hiff, ← h.timer_iff]
      cases opts.timeoutMs.isSome with
      | false =>
        rw [if_neg Bool.false_ne_true, iff_self_or]
        exact fun hadded ↦ absurd hadded.1 Bool.false_ne_true
      | true => rw [if_pos rfl, List.mem_append, List.mem_singleton, eq_self, true_and]

theorem Inv.abort (h : Inv nextId p) (id : JsonRpcId) : Inv nextId (p.abort id) := by
  rw [JsonRpcPeer.abort]
  split
  · exact h
  · next pending hlookup =>
    obtain ⟨-, hmatch⟩ := h.listeners _ (mem_of_lookup hlookup)
    have hlisteners : p.Matches (without id p.listeners) :=
      h.listeners.of_subset (fun _ hentry ↦ (mem_without.mp hentry).1) rfl fun _ hentry ↦ hentry
    have hq : Inv nextId { p with listeners := without id p.listeners } :=
      { h with listeners := hlisteners }
    exact hq.finishIfPending hmatch (settles_of_ne (fun _ ↦ SettledBy.noConfusion) rfl)

theorem Inv.call (h : Inv nextId p) (hfresh : Function.Injective nextId) (c : PeerCall V) :
    Inv nextId (p.call nextId c) := by
  rcases c with ⟨method, params, opts⟩ | ⟨method, params⟩ | id
  · exact h.request hfresh method params opts
  · change Inv nextId (p.notify method params)
    rw [notify]
    split
    · exact h
    · exact { h with }
  · exact h.abort id

theorem Inv.foldl {α : Type} {f : JsonRpcPeer V E → α → JsonRpcPeer V E} (h : Inv nextId p)
    (hf : ∀ p a, Inv nextId p → Inv nextId (f p a)) (as : List α) :
    Inv nextId (as.foldl f p) := by
  induction as generalizing p with
  | nil => exact h
  | cons a as ih => exact ih (hf p a h)

/-! ## What the messages do -/

theorem Inv.settle (h : Inv nextId p) (response : JsonRpcResponse V) :
    Inv nextId (p.settle response) := by
  have hgets : ∀ (n : ℕ) (r : JsonRpcResponse V), p.received[n]? = some r →
      (p.received ++ [response])[n]? = some r := by
    intro n r hr
    obtain ⟨hlt, -⟩ := List.getElem?_eq_some_iff.mp hr
    rw [List.getElem?_append_left hlt, hr]
  have hq : Inv nextId { p with received := p.received ++ [response] } :=
    { h with
      caused := fun s hs n hn ↦ by
        obtain ⟨r, hr, hown⟩ := h.caused s hs n hn
        exact ⟨r, hgets n r hr, hown⟩ }
  rw [JsonRpcPeer.settle]
  split
  · exact hq
  · next pending hlookup =>
    refine hq.finish (mem_of_lookup hlookup)
      ⟨fun n hn ↦ ?_, fun _ ↦ ⟨_, rfl⟩, fun n hn s hs hs' ↦ ?_⟩
    · cases hn
      exact ⟨response, List.getElem?_concat_length, rfl, rfl⟩
    · cases hn
      obtain ⟨r, hr, -⟩ := h.caused s hs _ hs'
      obtain ⟨hlt, -⟩ := List.getElem?_eq_some_iff.mp hr
      exact absurd hlt (Nat.lt_irrefl _)

theorem Inv.deliver (h : Inv nextId p) (hfresh : Function.Injective nextId)
    (m : JsonRpcSingleMessage V) : Inv nextId (p.deliver handlers nextId m) := by
  rcases m with request | notification | response
  · change Inv nextId (p.dispatchRequest handlers nextId request)
    rw [dispatchRequest]
    split
    · exact { h with }
    · exact h.foldl (fun _ c hp ↦ hp.call hfresh c) _
  · change Inv nextId (p.dispatchNotification handlers nextId notification)
    rw [dispatchNotification]
    split
    · exact h
    · exact h.foldl (fun _ c hp ↦ hp.call hfresh c) _
  · exact h.settle response

/-! ## What the time, the sends and the close do -/

/-- A timer runs only while its request is in the map, so what it does is to finish it. -/
theorem Inv.expire (h : Inv nextId p) (id : JsonRpcId) : Inv nextId (p.expire id) := by
  rw [JsonRpcPeer.expire]
  split
  · exact h
  · next pending hlookup =>
    obtain ⟨hmem, htimer⟩ := (h.timer_iff id pending).mp (mem_of_lookup hlookup)
    have hsettles : Settles p id (.rejected (timedOut pending)) .timeout :=
      settles_of_ne (fun _ ↦ SettledBy.noConfusion) rfl
    have hfinish := h.finish hmem hsettles
    rw [JsonRpcPeer.finish, if_pos htimer] at hfinish
    exact hfinish

theorem isContent_sendError (failure : SendFailure E) :
    (.rejected (sendError failure) : RequestOutcome V E).isContent = false := by
  cases failure <;> rfl

theorem isContent_closeReason (error : Option E) :
    (.rejected (closeReason error) : RequestOutcome V E).isContent = false := by
  cases error <;> rfl

theorem Inv.sendFailed (h : Inv nextId p) (id : JsonRpcId) (failure : SendFailure E) :
    Inv nextId (p.sendFailed id failure) := by
  rw [JsonRpcPeer.sendFailed]
  split
  · exact h
  · next pending hlookup =>
    obtain ⟨-, hmatch⟩ := h.sends _ (mem_of_lookup hlookup)
    have hsends : p.Matches (without id p.sends) :=
      h.sends.of_subset (fun _ hentry ↦ (mem_without.mp hentry).1) rfl fun _ hentry ↦ hentry
    have hq : Inv nextId { p with sends := without id p.sends } := { h with sends := hsends }
    exact hq.finishIfPending hmatch
      (settles_of_ne (fun _ ↦ SettledBy.noConfusion) (isContent_sendError failure))

/-- Whether the peer is closed has no part in how requests are finished. -/
theorem foldl_finish_closed (outcome : RequestOutcome V E) (entries : List (JsonRpcId × Pending))
    (error : Option (PeerError V E)) :
    entries.foldl (fun p entry ↦ p.finish entry.1 entry.2 outcome .close)
        { p with closed := true, closeError := error } =
      { entries.foldl (fun p entry ↦ p.finish entry.1 entry.2 outcome .close) p with
        closed := true, closeError := error } := by
  induction entries generalizing p with
  | nil => rfl
  | cons entry entries ih => exact ih (p := p.finish entry.1 entry.2 outcome .close)

theorem Inv.finishAll (h : Inv nextId p) {error : PeerError V E}
    (herror : (RequestOutcome.rejected error : RequestOutcome V E).isContent = false)
    {entries : List (JsonRpcId × Pending)} (hentries : p.pending = entries) :
    Inv nextId (entries.foldl
        (fun p entry ↦ p.finish entry.1 entry.2 (.rejected error) .close) p) ∧
      (entries.foldl (fun p entry ↦ p.finish entry.1 entry.2 (.rejected error) .close) p).pending =
        [] := by
  induction entries generalizing p with
  | nil => exact ⟨h, hentries⟩
  | cons entry entries ih =>
    have hmem : (entry.1, entry.2) ∈ p.pending := hentries ▸ List.mem_cons_self
    have hnodup := h.accounted.nodup_pending
    rw [pendingIds, hentries, List.map_cons, List.nodup_cons] at hnodup
    refine ih (h.finish hmem (settles_of_ne (fun _ ↦ SettledBy.noConfusion) herror)) ?_
    change without entry.1 p.pending = entries
    rw [hentries, without, List.filter_cons_of_neg (by simp), List.filter_eq_self]
    refine fun other hother ↦ decide_eq_true fun heq ↦ hnodup.1 ?_
    rw [← heq]
    exact List.mem_map_of_mem hother

theorem Inv.onClose (h : Inv nextId p) (error : Option E) : Inv nextId (p.onClose error) := by
  rw [JsonRpcPeer.onClose]
  split
  · exact h
  · obtain ⟨hinv, hnil⟩ := h.finishAll (isContent_closeReason error) rfl
    rw [foldl_finish_closed]
    exact { hinv with pending_of_closed := fun _ ↦ hnil }

/-! ## Runs -/

theorem Inv.step (hfresh : Function.Injective nextId) (move : PeerMove V E) (p : JsonRpcPeer V E)
    (h : Inv nextId p) : Inv nextId (p.step handlers nextId move) := by
  cases move with
  | call c => exact h.call hfresh c
  | receive message => exact h.foldl (fun _ m hp ↦ hp.deliver hfresh m) message.members
  | answer response => exact { h with }
  | expire id => exact h.expire id
  | sent id =>
    have hsends : p.Matches (without id p.sends) :=
      h.sends.of_subset (fun _ hentry ↦ (mem_without.mp hentry).1) rfl fun _ hentry ↦ hentry
    exact { h with sends := hsends }
  | sendFailed id failure => exact h.sendFailed id failure
  | close error => exact h.onClose error

/-- **Every request is settled once, and by its own response if by a response.** Whatever happens to
the peer in whatever order, if ids are fresh. -/
theorem correlated_run (handlers : PeerHandlers V) (hfresh : Function.Injective nextId)
    (moves : List (PeerMove V E)) : (run (step handlers nextId) moves {}).Correlated :=
  (run_of_step (fun move _ h ↦ h.step hfresh move) moves inv_init).correlated

/-- The ids that a peer draws if it is given no others. -/
def counterId (n : ℕ) : JsonRpcId := .number (n + 1)

theorem counterId_injective : Function.Injective counterId := by
  intro m n h
  have heq := JsonRpcId.number.inj h
  omega

/-- Two requests, the second of which is answered first, in a batch in which the answer comes again.
The first one has run out of time when its answer comes. -/
def lateAnswer : List (PeerMove String Unit) :=
  [.call (.request "list" none { timeoutMs := some 50 }), .call (.request "read" none {}),
    .receive (.batch
      [.response ⟨.number 2, some "second", none, Bool.false_ne_true.symm⟩,
        .response ⟨.number 2, some "again", none, Bool.false_ne_true.symm⟩]),
    .expire (.number 1),
    .receive (.single (.response ⟨.number 1, some "late", none, Bool.false_ne_true.symm⟩))]

theorem correlated_run_lateAnswer : Function.Injective counterId ∧
    (run (step {} counterId) lateAnswer {}).Correlated :=
  ⟨counterId_injective, correlated_run {} counterId_injective lateAnswer⟩

example : (run (step {} counterId) lateAnswer {}).settled =
    [⟨.number 2, .resolved (some "second"), .response 0⟩,
      ⟨.number 1, .rejected (.mcp .timeout "request \"list\" timed out after 50ms"),
        .timeout⟩] := by
  decide

end JsonRpcPeer

end QwenHarness.Mcp
