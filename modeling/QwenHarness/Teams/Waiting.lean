import QwenHarness.Run.Along
import QwenHarness.Teams.Teammate

/-!
# Waiting at an inbox

Several may wait at one inbox, each with a signal of its own, but the inbox has a single slot for
the one that it wakes. Who begins to wait takes the slot, and a signal that is aborted clears it
for each wait that has ever listened to it, whoever is in the slot by then.

Messages are handed out once and in order all the same. A delivery wakes everybody that waits if
and only if nobody that waits has been overtaken: by another wait, or by the abort of a signal
that some wait listened to (`serves_iff`).
-/

namespace QwenHarness.Teams

/-! ## The model -/

/-- What has become of the promise of a wait. -/
inductive WaitState
  | pending
  | resolved
  | rejected
deriving DecidableEq, Repr

/-- An inbox and those that have waited at it. A wait goes by the number of waits before it. -/
structure WaitingInbox (σ : Type) where
  inbox : Inbox
  wake : Option ℕ
  waits : List WaitState
  /-- The listeners for an abort, in the order they were added: the signal and the wait. -/
  listeners : List (σ × ℕ)
  aborted : List σ

namespace WaitingInbox

variable {σ : Type}

def empty : WaitingInbox σ := ⟨Inbox.empty, none, [], [], []⟩

/-- Settle the promise of a wait, unless it is settled. -/
def settle (s : WaitingInbox σ) (w : ℕ) (outcome : WaitState) : WaitingInbox σ :=
  { s with waits := s.waits.modify w fun state ↦ if state = .pending then outcome else state }

def deliver (s : WaitingInbox σ) (id sender : String) (message : ProtocolMessage) (now : ℤ) :
    Bool × WaitingInbox σ :=
  match s.inbox.deliver id sender message now with
  | (false, _) => (false, s)
  | (true, inbox) =>
    let s' : WaitingInbox σ := { s with inbox, wake := none }
    match s.wake with
    | none => (true, s')
    | some w => (true, s'.settle w .resolved)

def drain (s : WaitingInbox σ) : List InboxEntry × WaitingInbox σ :=
  (s.inbox.drain.1, { s with inbox := s.inbox.drain.2 })

variable [DecidableEq σ]

/-- A wait that is begun now will sleep. -/
def sleeps (s : WaitingInbox σ) (signal : Option σ) : Bool :=
  decide (s.inbox.entries = []) && signal.all fun x ↦ decide (x ∉ s.aborted)

def waitForMessage (s : WaitingInbox σ) (signal : Option σ) : WaitingInbox σ :=
  if s.inbox.entries ≠ [] then { s with waits := s.waits ++ [.resolved] }
  else if signal.any fun x ↦ decide (x ∈ s.aborted) then
    { s with waits := s.waits ++ [.rejected] }
  else
    { s with
      wake := some s.waits.length
      waits := s.waits ++ [.pending]
      listeners := s.listeners ++ signal.toList.map fun x ↦ (x, s.waits.length) }

/-- What a listener does. -/
def onAbort (s : WaitingInbox σ) (listener : σ × ℕ) : WaitingInbox σ :=
  { s with wake := none }.settle listener.2 .rejected

/-- A signal is aborted once, and its listeners are called in their order. -/
def abort (s : WaitingInbox σ) (signal : σ) : WaitingInbox σ :=
  if signal ∈ s.aborted then s
  else
    (s.listeners.filter fun x ↦ x.1 = signal).foldl onAbort
      { s with
        aborted := signal :: s.aborted
        listeners := s.listeners.filter fun x ↦ x.1 ≠ signal }

end WaitingInbox

inductive InboxMove (σ : Type)
  | deliver (id sender : String) (message : ProtocolMessage) (now : ℤ)
  | drain
  | wait (signal : Option σ)
  | abort (signal : σ)

/-- An inbox that is watched from outside. -/
structure Watched (σ : Type) where
  state : WaitingInbox σ
  /-- The messages whose delivery was accepted. -/
  delivered : List (String × String × ProtocolMessage × ℤ)
  /-- What the calls of `drain` have returned. -/
  handed : List InboxEntry
  /-- The waits before this one have been overtaken. -/
  since : ℕ

namespace Watched

variable {σ : Type} [DecidableEq σ]

def start : Watched σ := ⟨.empty, [], [], 0⟩

/-- A move overtakes the waits so far: a wait that sleeps, or an abort that some wait hears. -/
def overtakes (s : WaitingInbox σ) : InboxMove σ → Bool
  | .wait signal => s.sleeps signal
  | .abort signal => decide (signal ∉ s.aborted) && s.listeners.any fun x ↦ decide (x.1 = signal)
  | _ => false

def watch (move : InboxMove σ) (v : Watched σ) : Watched σ :=
  let since := if overtakes v.state move then v.state.waits.length else v.since
  match move with
  | .deliver id sender message now =>
    let (accepted, state) := v.state.deliver id sender message now
    let delivered := if accepted then v.delivered ++ [(id, sender, message, now)] else v.delivered
    { v with state, delivered, since }
  | .drain => { v with state := v.state.drain.2, handed := v.handed ++ v.state.drain.1, since }
  | .wait signal => { v with state := v.state.waitForMessage signal, since }
  | .abort signal => { v with state := v.state.abort signal, since }

/-- The wait has not been settled. -/
def Pending (v : Watched σ) (w : ℕ) : Prop := v.state.waits[w]? = some .pending

/-- The move delivers a message that was not delivered before. -/
def Delivers (v : Watched σ) : InboxMove σ → Prop
  | .deliver id _ _ _ => id ∉ v.state.inbox.seen
  | _ => False

end Watched

/-- What went in with an entry. -/
def InboxEntry.letter (e : InboxEntry) : String × String × ProtocolMessage × ℤ :=
  (e.id, e.sender, e.message, e.deliveredAt)

section Serves

variable {σ : Type} [DecidableEq σ]

open Run Watched

/-- A delivery resolves every wait that is pending. -/
def Wakes (move : InboxMove σ) (v : Watched σ) : Prop :=
  v.Delivers move → ∀ w, v.Pending w → (watch move v).state.waits[w]? = some .resolved

/-- **What an inbox is for**: no message is lost or handed out twice, and whoever waits is woken
by the next one. -/
structure Serves (moves : List (InboxMove σ)) : Prop where
  once : ((run watch moves start).handed.map InboxEntry.id).Nodup
  order : ((run watch moves start).handed ++ (run watch moves start).state.inbox.entries).map
    InboxEntry.letter = (run watch moves start).delivered
  kept : ∀ id sender message now, InboxMove.deliver id sender message now ∈ moves →
    id ∈ ((run watch moves start).handed ++ (run watch moves start).state.inbox.entries).map
      InboxEntry.id
  wakes : Along watch Wakes moves start

/-- No wait that a delivery finds pending has been overtaken. -/
def Undisturbed (moves : List (InboxMove σ)) : Prop :=
  Along watch (fun move v ↦ v.Delivers move → ∀ w, v.Pending w → v.since ≤ w) moves start

end Serves

/-! ## The slot -/

section Slot

variable {σ : Type} {s : WaitingInbox σ} {w : ℕ}

theorem pending_settle_iff {w' : ℕ} {outcome : WaitState} (h : outcome ≠ .pending) :
    (s.settle w' outcome).waits[w]? = some .pending ↔ s.waits[w]? = some .pending ∧ w' ≠ w := by
  rw [WaitingInbox.settle, List.getElem?_modify]
  by_cases hw : w' = w
  · cases s.waits[w]? with
    | none => simp
    | some state => cases state <;> simp [hw, h]
  · cases s.waits[w]? with
    | none => simp
    | some state => simp [hw]

theorem settle_of_pending {outcome : WaitState} (h : s.waits[w]? = some .pending) :
    (s.settle w outcome).waits[w]? = some outcome := by
  rw [WaitingInbox.settle, List.getElem?_modify, h]
  simp

theorem deliver_of_mem {id sender : String} {message : ProtocolMessage} {now : ℤ}
    (h : id ∈ s.inbox.seen) : s.deliver id sender message now = (false, s) := by
  rw [WaitingInbox.deliver, Inbox.deliver, if_pos h]

/-- A delivery empties the slot and resolves the one that was in it. -/
theorem deliver_of_not_mem {id : String} (sender : String) (message : ProtocolMessage) (now : ℤ)
    (h : id ∉ s.inbox.seen) :
    (s.deliver id sender message now).1 = true ∧
      (s.deliver id sender message now).2.inbox = (s.inbox.deliver id sender message now).2 ∧
      (s.deliver id sender message now).2.wake = none ∧
      ∀ w, s.waits[w]? = some .pending →
        (s.deliver id sender message now).2.waits[w]? =
          some (if s.wake = some w then .resolved else .pending) := by
  rw [WaitingInbox.deliver, Inbox.deliver, if_neg h]
  cases hslot : s.wake with
  | none =>
    refine ⟨rfl, rfl, rfl, fun w hw ↦ ?_⟩
    rw [if_neg (Option.some_ne_none w).symm]
    exact hw
  | some w' =>
    refine ⟨rfl, rfl, rfl, fun w hw ↦ ?_⟩
    by_cases heq : w' = w
    · rw [if_pos (congrArg some heq), heq]
      exact settle_of_pending hw
    · rw [if_neg (fun h ↦ heq (Option.some.inj h))]
      exact (pending_settle_iff (by decide)).mpr ⟨hw, heq⟩

theorem pending_of_deliver {id sender : String} {message : ProtocolMessage} {now : ℤ}
    (h : (s.deliver id sender message now).2.waits[w]? = some .pending) :
    s.waits[w]? = some .pending := by
  rw [WaitingInbox.deliver] at h
  split at h
  · exact h
  · split at h
    · exact h
    · exact ((pending_settle_iff (by decide)).mp h).1

/-- What the listeners leave. -/
theorem foldl_onAbort (listeners : List (σ × ℕ)) (s : WaitingInbox σ) :
    (listeners.foldl WaitingInbox.onAbort s).inbox = s.inbox ∧
      (listeners ≠ [] → (listeners.foldl WaitingInbox.onAbort s).wake = none) ∧
      ∀ w : ℕ, (listeners.foldl WaitingInbox.onAbort s).waits[w]? = some .pending →
        s.waits[w]? = some .pending := by
  induction listeners generalizing s with
  | nil => exact ⟨rfl, fun h ↦ absurd rfl h, fun _ h ↦ h⟩
  | cons listener listeners ih =>
    obtain ⟨hinbox, hwake, hpending⟩ := ih (s.onAbort listener)
    rw [List.foldl_cons]
    refine ⟨hinbox, fun _ ↦ ?_, fun w hw ↦ ?_⟩
    · cases listeners with
      | nil => rfl
      | cons l ls => exact hwake (List.cons_ne_nil _ _)
    · exact ((pending_settle_iff (by decide)).mp (hpending w hw)).1

variable {v : Watched σ}

open Run Watched

/-- The one in the slot is the one that was not overtaken. -/
def SlotOk (v : Watched σ) : Prop := ∀ w, v.Pending w → (v.since ≤ w ↔ v.state.wake = some w)

theorem lt_of_pending (h : v.Pending w) : w < v.state.waits.length :=
  (List.getElem?_eq_some_iff.mp h).1

variable [DecidableEq σ]

theorem waitForMessage_of_sleeps {signal : Option σ} (h : s.sleeps signal = true) :
    s.waitForMessage signal =
      { s with
        wake := some s.waits.length
        waits := s.waits ++ [.pending]
        listeners := s.listeners ++ signal.toList.map fun x ↦ (x, s.waits.length) } := by
  obtain ⟨hempty, hsignal⟩ := Bool.and_eq_true_iff.mp h
  have hany : ¬ (signal.any fun x ↦ decide (x ∈ s.aborted)) = true := by
    cases signal with
    | none => exact Bool.false_ne_true
    | some x =>
      intro hx
      exact of_decide_eq_true hsignal (of_decide_eq_true hx)
  rw [WaitingInbox.waitForMessage, if_neg (not_not.mpr (of_decide_eq_true hempty)), if_neg hany]

/-- A wait that does not sleep is settled at once. -/
theorem waitForMessage_of_not_sleeps {signal : Option σ} (h : s.sleeps signal = false) :
    ∃ outcome, outcome ≠ .pending ∧
      s.waitForMessage signal = { s with waits := s.waits ++ [outcome] } := by
  rw [WaitingInbox.waitForMessage]
  by_cases hempty : s.inbox.entries = []
  · have hany : (signal.any fun x ↦ decide (x ∈ s.aborted)) = true := by
      rw [WaitingInbox.sleeps, hempty, decide_eq_true rfl, Bool.true_and] at h
      cases signal with
      | none => cases h
      | some x => exact decide_eq_true (not_not.mp (of_decide_eq_false h))
    rw [if_neg (not_not.mpr hempty), if_pos hany]
    exact ⟨.rejected, by decide, rfl⟩
  · rw [if_pos hempty]
    exact ⟨.resolved, by decide, rfl⟩

theorem pending_of_concat {waits : List WaitState} {outcome : WaitState} (h : outcome ≠ .pending)
    (hw : (waits ++ [outcome])[w]? = some .pending) : waits[w]? = some .pending := by
  by_cases hlt : w < waits.length
  · exact (List.getElem?_append_left hlt).symm.trans hw
  · rw [List.getElem?_append_right (not_lt.mp hlt)] at hw
    exact absurd (List.mem_singleton.mp (List.mem_of_getElem? hw)).symm h

/-- A wait that sleeps takes the slot, and overtakes the others. -/
theorem slotOk_wait {signal : Option σ} (hslot : SlotOk v) : SlotOk (watch (.wait signal) v) := by
  intro w hw
  change (v.state.waitForMessage signal).waits[w]? = some .pending at hw
  change (if v.state.sleeps signal then v.state.waits.length else v.since) ≤ w ↔
    (v.state.waitForMessage signal).wake = some w
  cases hsleeps : v.state.sleeps signal with
  | true =>
    rw [waitForMessage_of_sleeps hsleeps] at hw ⊢
    have hle := (List.getElem?_eq_some_iff.mp hw).1
    rw [List.length_append, List.length_singleton, Nat.lt_succ_iff] at hle
    rw [if_pos rfl, Option.some_inj]
    exact ⟨fun h ↦ le_antisymm h hle, fun h ↦ h.le⟩
  | false =>
    obtain ⟨outcome, hsettled, heq⟩ := waitForMessage_of_not_sleeps hsleeps
    rw [heq] at hw ⊢
    exact hslot w (pending_of_concat hsettled hw)

theorem slotOk_abort {signal : σ} (hslot : SlotOk v) : SlotOk (watch (.abort signal) v) := by
  intro w hw
  change (v.state.abort signal).waits[w]? = some .pending at hw
  change (if overtakes v.state (.abort signal) then v.state.waits.length else v.since) ≤ w ↔
    (v.state.abort signal).wake = some w
  rw [WaitingInbox.abort] at hw ⊢
  by_cases haborted : signal ∈ v.state.aborted
  · have hquiet : overtakes v.state (.abort signal) = false := by
      rw [overtakes, decide_eq_false (not_not.mpr haborted), Bool.false_and]
    rw [if_pos haborted] at hw ⊢
    rw [hquiet]
    exact hslot w hw
  · rw [if_neg haborted] at hw ⊢
    obtain ⟨-, hwake, hpending⟩ := foldl_onAbort
      (v.state.listeners.filter fun x ↦ x.1 = signal)
      { v.state with
        aborted := signal :: v.state.aborted
        listeners := v.state.listeners.filter fun x ↦ x.1 ≠ signal }
    have hold : v.Pending w := hpending w hw
    have hheard : overtakes v.state (.abort signal) = true ↔
        (v.state.listeners.filter fun x ↦ x.1 = signal) ≠ [] := by
      rw [overtakes, decide_eq_true haborted, Bool.true_and, List.any_eq_true, Ne,
        List.filter_eq_nil_iff]
      simp
    by_cases hheard' : (v.state.listeners.filter fun x ↦ x.1 = signal) = []
    · rw [hheard', if_neg (fun h ↦ hheard.mp h hheard')]
      exact hslot w hold
    · rw [if_pos (hheard.mpr hheard'), hwake hheard']
      exact iff_of_false (lt_of_pending hold).not_ge (Option.some_ne_none w).symm

theorem slotOk_watch {move : InboxMove σ} (hslot : SlotOk v) : SlotOk (watch move v) := by
  cases move with
  | deliver id sender message now =>
    intro w hw
    have hold : v.Pending w := pending_of_deliver hw
    change v.since ≤ w ↔ (v.state.deliver id sender message now).2.wake = some w
    by_cases hseen : id ∈ v.state.inbox.seen
    · rw [deliver_of_mem hseen]
      exact hslot w hold
    · obtain ⟨-, -, hwake, hwaits⟩ := deliver_of_not_mem sender message now hseen
      have hstill := (hwaits w hold).symm.trans hw
      have hother : ¬ v.state.wake = some w := by
        intro hslot'
        rw [if_pos hslot'] at hstill
        cases hstill
      rw [hwake, hslot w hold]
      exact iff_of_false hother (Option.some_ne_none w).symm
  | drain => exact hslot
  | wait signal => exact slotOk_wait hslot
  | abort signal => exact slotOk_abort hslot

/-- **A delivery wakes everybody** if and only if nobody has been overtaken. -/
theorem wakes_iff {move : InboxMove σ} (hslot : SlotOk v) :
    Wakes move v ↔ (v.Delivers move → ∀ w, v.Pending w → v.since ≤ w) := by
  refine forall_congr' fun hdelivers ↦ forall_congr' fun w ↦ forall_congr' fun hw ↦ ?_
  cases move with
  | deliver id sender message now =>
    obtain ⟨-, -, -, hwaits⟩ := deliver_of_not_mem sender message now hdelivers
    change (v.state.deliver id sender message now).2.waits[w]? = some .resolved ↔ _
    rw [hwaits w hw, hslot w hw, Option.some_inj]
    split
    · next h => exact iff_of_true rfl h
    · next h => exact iff_of_false (by decide) h
  | drain => exact hdelivers.elim
  | wait signal => exact hdelivers.elim
  | abort signal => exact hdelivers.elim

end Slot

/-! ## What is handed out -/

section Handed

variable {σ : Type} {v : Watched σ}

open Run Watched

/-- What was delivered has been handed out or is in the inbox, in the order of the deliveries. -/
structure Conserved (v : Watched σ) : Prop where
  letters : (v.handed ++ v.state.inbox.entries).map InboxEntry.letter = v.delivered
  seen : v.state.inbox.seen = (v.delivered.map Prod.fst).reverse
  nodup : v.state.inbox.seen.Nodup

/-- A move that leaves the messages alone. -/
theorem Conserved.of_inbox_eq {v' : Watched σ} (h : Conserved v)
    (hinbox : v'.state.inbox = v.state.inbox) (hhanded : v'.handed = v.handed)
    (hdelivered : v'.delivered = v.delivered) : Conserved v' := by
  refine ⟨?_, ?_, ?_⟩
  · rw [hinbox, hhanded, hdelivered, h.letters]
  · rw [hinbox, hdelivered, h.seen]
  · rw [hinbox]
    exact h.nodup

variable [DecidableEq σ]

theorem waitForMessage_inbox (s : WaitingInbox σ) (signal : Option σ) :
    (s.waitForMessage signal).inbox = s.inbox := by
  cases hsleeps : s.sleeps signal with
  | true => rw [waitForMessage_of_sleeps hsleeps]
  | false =>
    obtain ⟨outcome, -, heq⟩ := waitForMessage_of_not_sleeps hsleeps
    rw [heq]

theorem abort_inbox (s : WaitingInbox σ) (signal : σ) : (s.abort signal).inbox = s.inbox := by
  rw [WaitingInbox.abort]
  split
  · rfl
  · exact (foldl_onAbort _ _).1

theorem conserved_deliver {id sender : String} {message : ProtocolMessage} {now : ℤ}
    (h : Conserved v) : Conserved (watch (.deliver id sender message now) v) := by
  by_cases hseen : id ∈ v.state.inbox.seen
  · have hsame : watch (.deliver id sender message now) v = v := by
      rw [watch, deliver_of_mem hseen]
      rfl
    rwa [hsame]
  · obtain ⟨haccepted, hinbox, -, -⟩ := deliver_of_not_mem sender message now hseen
    rw [Inbox.deliver, if_neg hseen] at hinbox
    have hdelivered : (watch (.deliver id sender message now) v).delivered
        = v.delivered ++ [(id, sender, message, now)] := if_pos haccepted
    refine ⟨?_, ?_, ?_⟩
    · change (v.handed ++ (v.state.deliver id sender message now).2.inbox.entries).map _ = _
      rw [hdelivered, hinbox, ← List.append_assoc, List.map_append, h.letters]
      rfl
    · change (v.state.deliver id sender message now).2.inbox.seen = _
      rw [hdelivered, hinbox, List.map_append, List.reverse_append, ← h.seen]
      rfl
    · change (v.state.deliver id sender message now).2.inbox.seen.Nodup
      rw [hinbox]
      exact List.nodup_cons.mpr ⟨hseen, h.nodup⟩

theorem conserved_watch {move : InboxMove σ} (h : Conserved v) : Conserved (watch move v) := by
  cases move with
  | deliver id sender message now => exact conserved_deliver h
  | drain =>
    refine ⟨?_, h.seen, h.nodup⟩
    change ((v.handed ++ v.state.inbox.entries) ++ []).map _ = _
    rw [List.append_nil]
    exact h.letters
  | wait signal => exact h.of_inbox_eq (waitForMessage_inbox v.state signal) rfl rfl
  | abort signal => exact h.of_inbox_eq (abort_inbox v.state signal) rfl rfl

theorem seen_subset_watch (move : InboxMove σ) (v : Watched σ) :
    v.state.inbox.seen ⊆ (watch move v).state.inbox.seen := by
  cases move with
  | deliver id sender message now =>
    change _ ⊆ (v.state.deliver id sender message now).2.inbox.seen
    by_cases hseen : id ∈ v.state.inbox.seen
    · rw [deliver_of_mem hseen]
      exact fun _ h ↦ h
    · rw [(deliver_of_not_mem _ _ _ hseen).2.1, Inbox.deliver, if_neg hseen]
      exact fun _ h ↦ List.mem_cons_of_mem id h
  | drain => exact fun _ h ↦ h
  | wait signal =>
    change _ ⊆ (v.state.waitForMessage signal).inbox.seen
    rw [waitForMessage_inbox]
    exact fun _ h ↦ h
  | abort signal =>
    change _ ⊆ (v.state.abort signal).inbox.seen
    rw [abort_inbox]
    exact fun _ h ↦ h

theorem mem_seen_deliver (id sender : String) (message : ProtocolMessage) (now : ℤ)
    (v : Watched σ) : id ∈ (watch (.deliver id sender message now) v).state.inbox.seen := by
  change id ∈ (v.state.deliver id sender message now).2.inbox.seen
  by_cases hseen : id ∈ v.state.inbox.seen
  · rwa [deliver_of_mem hseen]
  · rw [(deliver_of_not_mem _ _ _ hseen).2.1, Inbox.deliver, if_neg hseen]
    exact List.mem_cons_self

/-- What is delivered somewhere in a run has been seen at its end. -/
theorem mem_seen_run {id sender : String} {message : ProtocolMessage} {now : ℤ}
    {moves : List (InboxMove σ)} (h : .deliver id sender message now ∈ moves) (v : Watched σ) :
    id ∈ (run watch moves v).state.inbox.seen := by
  have hkeeps (moves : List (InboxMove σ)) (v : Watched σ) :
      v.state.inbox.seen ⊆ (run watch moves v).state.inbox.seen := by
    induction moves generalizing v with
    | nil => exact fun _ h ↦ h
    | cons move moves ih => exact fun _ h ↦ ih _ (seen_subset_watch move v h)
  obtain ⟨before, after, rfl⟩ := List.append_of_mem h
  rw [run_append]
  exact hkeeps after _ (mem_seen_deliver id sender message now _)

/-! ## What an inbox does -/

theorem conserved_run (moves : List (InboxMove σ)) (h : Conserved v) :
    Conserved (run watch moves v) := by
  induction moves generalizing v with
  | nil => exact h
  | cons move moves ih => exact ih (conserved_watch h)

/-- **An inbox does what it is for** if and only if no delivery finds a wait that was overtaken.
The messages are in order either way. -/
theorem serves_iff (moves : List (InboxMove σ)) : Serves moves ↔ Undisturbed moves := by
  have hslot : SlotOk (start : Watched σ) := by
    intro w hw
    cases hw
  have hwakes : Along watch Wakes moves start ↔ Undisturbed moves :=
    along_iff_along (fun _ s (h : SlotOk s) _ ↦ slotOk_watch h) (fun _ _ h ↦ wakes_iff h)
      moves hslot
  refine ⟨fun h ↦ hwakes.mp h.wakes, fun h ↦ ?_⟩
  have hconserved : Conserved (run watch moves start) :=
    conserved_run moves ⟨rfl, rfl, List.nodup_nil⟩
  have hids : ((run watch moves start).handed ++
      (run watch moves start).state.inbox.entries).map InboxEntry.id
      = (run watch moves start).state.inbox.seen.reverse := by
    rw [hconserved.seen, List.reverse_reverse, ← hconserved.letters, List.map_map]
    rfl
  have hnodup := List.nodup_reverse.mpr hconserved.nodup
  rw [← hids, List.map_append] at hnodup
  refine ⟨hnodup.of_append_left, hconserved.letters, ?_, hwakes.mpr h⟩
  intro id sender message now hmem
  rw [hids, List.mem_reverse]
  exact mem_seen_run hmem start

/-- Two wait, and only the second of them is woken. -/
theorem not_serves_two_waits : ¬ ∀ moves : List (InboxMove ℕ), Serves moves := by
  intro h
  have hwakes := (h [.wait none, .wait none, .deliver "m" "lead" .idle 0]).wakes
  have hfirst := hwakes.2.2.1 List.not_mem_nil 0 rfl
  revert hfirst
  decide

end Handed

end QwenHarness.Teams
