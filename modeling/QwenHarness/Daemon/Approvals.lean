import QwenHarness.Cli.Fork
import QwenHarness.Daemon.Turns
import QwenHarness.Run.Along
import QwenHarness.Table.Accounted

/-!
# What the daemon answers

The two slots say what is the case: a turn is under way exactly while one is in flight, and it waits
for an answer exactly while an approval is pending. While one is pending there is a client to answer
it, and the turn has not been aborted, unless the daemon is being stopped.

So every request is answered once, or is still pending. It is approved by a command to approve and
by nothing else: the command came while the request was pending, and named its call or none.
-/

namespace QwenHarness.Daemon

open Sessions (findPendingApproval reconstructHistory)

/-! ## The slots -/

/-- The slot a turn is in. -/
def Turn.slot (turn : Turn) : InFlight := ⟨turn.threadId, turn.id⟩

/-- What a turn waits for. -/
def Turn.wait (turn : Turn) : Option (String × ℕ) :=
  turn.asking.map fun request ↦ (turn.threadId, request)

def PendingApproval.wait (p : PendingApproval) : String × ℕ := (p.threadId, p.request)

@[simp] theorem Turn.slot_answered (turn : Turn) (request : ℕ) :
    (turn.answered request).slot = turn.slot := by
  rw [Turn.answered]
  split <;> rfl

namespace DaemonState

variable {opts : DaemonOptions} {d : DaemonState}

/-- The slots are of the turn under way and of what it waits for. -/
structure Slots (d : DaemonState) : Prop where
  turn : d.turns.map Turn.slot = d.inFlight.toList
  wait : d.turns.filterMap Turn.wait = d.pending.toList.map PendingApproval.wait
  accounted : Accounted (List.range d.asked) (d.pending.toList.map PendingApproval.request)
    (d.answers.map Prod.fst)

/-- While an approval is pending, it can be answered. -/
structure Kept (d : DaemonState) : Prop extends Slots d where
  heard : d.pending.isSome → d.clients ≠ []
  live : d.pending.isSome → ∀ turn ∈ d.turns, turn.aborted = true → d.closed = true

theorem Slots.turns_eq_nil (h : Slots d) (hfree : d.inFlight = none) : d.turns = [] := by
  have hturn := h.turn
  rw [hfree, Option.toList_none, List.map_eq_nil_iff] at hturn
  exact hturn

theorem Slots.pending_eq_none (h : Slots d) (hquiet : ∀ turn ∈ d.turns, turn.asking = none) :
    d.pending = none := by
  have hwait := h.wait
  have hnone : d.turns.filterMap Turn.wait = [] := List.filterMap_eq_nil_iff.mpr fun turn ht ↦ by
    rw [Turn.wait, hquiet turn ht, Option.map_none]
  rw [hnone, eq_comm, List.map_eq_nil_iff, Option.toList_eq_nil_iff] at hwait
  exact hwait

/-- There is at most one turn. -/
theorem Slots.eq_singleton (h : Slots d) {turn : Turn} (ht : turn ∈ d.turns) :
    d.turns = [turn] ∧ d.inFlight = some turn.slot := by
  have hslot := h.turn
  have hmem : turn.slot ∈ d.inFlight.toList := hslot ▸ List.mem_map_of_mem ht
  rw [Option.mem_toList] at hmem
  rw [hmem, Option.toList_some] at hslot
  obtain ⟨turn', hturns, -⟩ := List.map_eq_singleton_iff.mp hslot
  rw [hturns, List.mem_singleton] at ht
  exact ⟨ht ▸ hturns, hmem⟩

/-- Where an approval is pending, the turn waits for it. -/
theorem Slots.waiting (h : Slots d) {p : PendingApproval} (hp : d.pending = some p) :
    ∃ turn, d.turns = [turn] ∧ turn.threadId = p.threadId ∧ turn.asking = some p.request := by
  have hwait := h.wait
  have hmem : p.wait ∈ d.turns.filterMap Turn.wait := by
    rw [hwait, hp]
    exact List.mem_singleton_self _
  obtain ⟨turn, ht, hturn⟩ := List.mem_filterMap.mp hmem
  obtain ⟨request, hrequest, heq⟩ := Option.map_eq_some_iff.mp hturn
  obtain ⟨hthread, rfl⟩ := Prod.mk.inj heq
  exact ⟨turn, (h.eq_singleton ht).1, hthread, hrequest⟩

/-- Nothing is pending, so nothing has to be heard. -/
theorem Slots.kept (h : Slots d) (hp : d.pending = none) : Kept d where
  toSlots := h
  heard hsome := by simp [hp] at hsome
  live hsome := by simp [hp] at hsome

/-! ## One move -/

/-- Turns may change in ways that the slots do not tell. -/
theorem Slots.map (h : Slots d) {f : Turn → Turn} (hslot : ∀ turn, (f turn).slot = turn.slot)
    (hwait : ∀ turn, (f turn).wait = turn.wait) : Slots { d with turns := d.turns.map f } where
  turn := by
    rw [List.map_map, ← h.turn]
    exact List.map_congr_left fun turn _ ↦ hslot turn
  wait := by
    rw [List.filterMap_map, ← h.wait]
    exact List.filterMap_congr fun turn _ ↦ hwait turn
  accounted := h.accounted

theorem Slots.abort (h : Slots d) (turn : ℕ) : Slots (d.abort turn) := by
  refine h.map (fun t ↦ ?_) fun t ↦ ?_
  · split <;> rfl
  · split <;> rfl

theorem Slots.stored (h : Slots d) (turn : Turn) (event : HarnessEvent) :
    Slots (d.stored turn event) := by
  have hmap := h.map
    (f := fun t ↦ if t.id = turn.id then { t with appended := t.appended ++ [event] } else t)
    (fun t ↦ by split <;> rfl) fun t ↦ by split <;> rfl
  exact ⟨hmap.turn, hmap.wait, hmap.accounted⟩

/-- **Settling** frees the turn, and accounts for the request. -/
theorem Slots.settlePending (h : Slots d) {p : PendingApproval} (hp : d.pending = some p)
    (decision : ApprovalDecision) : Kept (d.settlePending p decision) := by
  obtain ⟨turn, hturns, -, hasking⟩ := h.waiting hp
  have hanswered : (d.settlePending p decision).turns = [{ turn with asking := none }] := by
    rw [DaemonState.settlePending, settle, hturns, List.map_singleton, Turn.answered,
      if_pos hasking]
  refine Slots.kept { turn := ?_, wait := ?_, accounted := ?_ } rfl
  · rw [hanswered, List.map_singleton]
    exact (congrArg (List.map Turn.slot) hturns).symm.trans h.turn
  · rw [hanswered]
    rfl
  · have haccounted := h.accounted
    rw [hp] at haccounted
    have hclosed := haccounted.close (k := p.request) (List.mem_singleton_self _)
    change Accounted (List.range d.asked) [] ((d.answers ++ [(p.request, decision)]).map Prod.fst)
    rw [List.map_append]
    simpa using hclosed

/-- What is sent leaves the slots alone. -/
theorem Kept.send (h : Kept d) (connection : ℕ) (frame : DaemonFrame) :
    Kept (d.send connection frame) := ⟨⟨h.turn, h.wait, h.accounted⟩, h.heard, h.live⟩

theorem Kept.onDisconnect (h : Kept d) (name : String) (connection : ℕ) :
    Kept (d.onDisconnect name connection) := by
  rw [DaemonState.onDisconnect]
  split
  · next p hp =>
    split
    · exact Slots.settlePending (d := { d with clients := d.remaining name connection })
        ⟨h.turn, h.wait, h.accounted⟩ hp detached
    · next hclients => exact ⟨⟨h.turn, h.wait, h.accounted⟩,
        fun _ hnil ↦ hclients (List.isEmpty_iff.mpr hnil), h.live⟩
  · next hp => exact Slots.kept ⟨h.turn, h.wait, h.accounted⟩ hp

theorem Kept.interrupt (h : Kept d) (connection : ℕ) : Kept (d.interrupt connection) := by
  rw [DaemonState.interrupt]
  split
  · exact h.send _ _
  · next inFlight hin =>
    have hslots := h.toSlots.abort inFlight.turn
    dsimp only
    split
    · next p hp => exact hslots.settlePending hp cancelled
    · next hp => exact hslots.kept hp

theorem Kept.approve (h : Kept d) (callId : Option String) (granted : Bool)
    (scope : Option ApprovalScope) (connection : ℕ) :
    Kept (d.approve callId granted scope connection) := by
  rw [DaemonState.approve]
  split
  · exact h.send _ _
  · next p hp =>
    split
    · exact h.toSlots.settlePending hp _
    · exact h.send _ _

/-- A turn is begun where none is in flight. -/
theorem Kept.spawnTurn (h : Kept d) (hfree : d.inFlight = none) (threadId text : String) :
    Kept (d.spawnTurn opts threadId text) := by
  have hturns := h.turns_eq_nil hfree
  have hpending := h.pending_eq_none fun turn ht ↦ absurd ht (hturns ▸ List.not_mem_nil)
  have haccounted := h.accounted
  rw [DaemonState.spawnTurn]
  dsimp only
  split
  · refine Slots.kept { turn := ?_, wait := ?_, accounted := haccounted } hpending
    · rw [hturns]
      rfl
    · rw [hturns, hpending]
      rfl
  · refine Slots.kept { turn := ?_, wait := ?_, accounted := ?_ } rfl
    · exact congrArg (List.map Turn.slot) hturns
    · exact congrArg (List.filterMap Turn.wait) hturns
    · rw [hpending] at haccounted
      exact haccounted

theorem cannotRun_eq_none {threadId : String} (h : d.cannotRun threadId = none) :
    d.inFlight = none ∧ (d.store.getThread threadId).isSome := by
  rw [cannotRun] at h
  split at h
  · cases h
  · next hfree =>
    split at h
    · cases h
    · next hthread =>
      exact ⟨Option.not_isSome_iff_eq_none.mp hfree,
        Option.isSome_iff_ne_none.mpr fun hnone ↦ hthread (Option.isNone_iff_eq_none.mpr hnone)⟩

theorem Kept.announce (h : Kept d) (threadId : String)
    (answer : Except StoreError HarnessEvent × EventStore) : Kept (d.announce threadId answer) := by
  rw [DaemonState.announce]
  dsimp only
  split <;> exact ⟨⟨h.turn, h.wait, h.accounted⟩, h.heard, h.live⟩

theorem Kept.onCommand (h : Kept d) (connection : ℕ) (command : Except String Command) :
    Kept (d.onCommand opts connection command) := by
  rcases command with issue | command
  · exact h.send _ _
  · cases command with
    | createThread name => exact h.announce _ _
    | startTurn threadId text =>
      rw [DaemonState.onCommand, startTurn]
      split
      · exact h.send _ _
      · next hrun =>
        split
        · exact h.send _ _
        · exact h.spawnTurn (cannotRun_eq_none hrun).1 threadId text
        · exact ⟨⟨h.turn, h.wait, h.accounted⟩, h.heard, h.live⟩
    | resumeThread threadId =>
      rw [DaemonState.onCommand, resumeThread]
      split
      · exact h.send _ _
      · next hrun =>
        split
        · exact h.spawnTurn (cannotRun_eq_none hrun).1 threadId ""
        · exact h.send _ _
        · exact ⟨⟨h.turn, h.wait, h.accounted⟩, h.heard, h.live⟩
    | approve threadId callId granted scope => exact h.approve callId granted scope connection
    | interrupt threadId => exact h.interrupt connection
    | unsupported type => exact h.send _ _

theorem running?_eq_some {id : ℕ} {turn : Turn} (h : d.running? id = some turn) :
    turn ∈ d.turns ∧ turn.asking = none := by
  have hprop := List.find?_some h
  exact ⟨List.mem_of_find?_eq_some h, (of_decide_eq_true hprop).2⟩

/-- What a turn does that waits for nothing. -/
theorem Kept.onTurn (h : Kept d) {turn : Turn} (ht : turn ∈ d.turns) (hasking : turn.asking = none)
    (move : TurnMove) : Kept (d.onTurn opts turn move) := by
  obtain ⟨hturns, hin⟩ := h.eq_singleton ht
  have hpending : d.pending = none := h.pending_eq_none fun t ht' ↦ by
    rw [hturns, List.mem_singleton] at ht'
    rw [ht', hasking]
  have haccounted := h.accounted
  rw [hpending] at haccounted
  have hissued : Accounted (List.range (d.asked + 1)) [d.asked] (d.answers.map Prod.fst) := by
    rw [List.range_succ]
    exact haccounted.issue (fun hmem ↦ absurd (List.mem_range.mp hmem) (lt_irrefl _))
  have hremoved : (d.removeTurn turn).turns = [] := by
    rw [removeTurn, hturns]
    exact List.filter_eq_nil_iff.mpr fun t ht' ↦ by
      rw [List.mem_singleton.mp ht', decide_eq_true_iff]
      exact not_not_intro rfl
  cases move with
  | append input =>
    rw [DaemonState.onTurn, onAppend]
    generalize EventStore.append _ _ _ d.store = answer
    split
    · dsimp only
      split
      · next event _ =>
        have hslots : Slots { d with store := answer.2, drawn := d.drawn + 1 } :=
          ⟨h.turn, h.wait, h.accounted⟩
        exact (hslots.stored turn event).kept hpending
      · exact Slots.kept ⟨h.turn, h.wait, h.accounted⟩ hpending
    · exact h
  | ask request =>
    have hsettled : ∀ decision, Kept ({ d with asked := d.asked + 1 }.settle d.asked decision) := by
      intro decision
      refine Slots.kept { turn := ?_, wait := ?_, accounted := ?_ } hpending
      · rw [settle, List.map_map, ← h.turn]
        exact List.map_congr_left fun t _ ↦ Turn.slot_answered t d.asked
      · rw [settle, hturns, hpending, List.map_singleton, Turn.answered, hasking]
        simp [Turn.wait, hasking]
      · have hclosed := hissued.close (k := d.asked) (List.mem_singleton_self _)
        change Accounted (List.range (d.asked + 1)) (d.pending.toList.map PendingApproval.request)
          ((d.answers ++ [(d.asked, decision)]).map Prod.fst)
        rw [hpending, List.map_append]
        simpa using hclosed
    rw [DaemonState.onTurn, onAsk]
    dsimp only
    split
    · exact hsettled _
    · next hclients =>
      split
      · exact hsettled _
      · next hlive =>
        refine ⟨{ turn := ?_, wait := ?_, accounted := hissued }, fun _ hnil ↦ ?_, fun _ t ht' ↦ ?_⟩
        · simp only [broadcast, hturns, hin, List.map_singleton, if_true]
          rfl
        · simp only [broadcast, hturns, List.map_singleton, if_true]
          rfl
        · exact hclients (List.isEmpty_iff.mpr hnil)
        · simp only [broadcast, hturns, List.map_singleton, if_true, List.mem_singleton] at ht'
          rw [ht']
          exact fun habort ↦ absurd habort hlive
  | finish result =>
    refine Slots.kept { turn := ?_, wait := ?_, accounted := haccounted } rfl
    · exact congrArg (List.map Turn.slot) hremoved
    · exact congrArg (List.filterMap Turn.wait) hremoved
  | fail message =>
    refine Slots.kept { turn := ?_, wait := ?_, accounted := haccounted } rfl
    · exact congrArg (List.map Turn.slot) hremoved
    · exact congrArg (List.filterMap Turn.wait) hremoved

/-- **Step.** Every move keeps the slots. -/
theorem Kept.step (h : Kept d) (move : DaemonMove) : Kept (d.step opts move) := by
  rw [DaemonState.step]
  split
  · exact h
  · cases move with
    | connect name connection =>
      rw [handle]
      split
      · exact h
      · exact ⟨⟨h.turn, h.wait, h.accounted⟩, fun _ ↦ List.append_ne_nil_of_right_ne_nil _
          (List.cons_ne_nil _ _), h.live⟩
    | disconnect name connection => exact h.onDisconnect name connection
    | command connection command =>
      rw [handle]
      split
      · exact h
      · exact h.onCommand connection command
    | turn id move =>
      rw [handle]
      split
      · next turn hturn =>
        obtain ⟨ht, hasking⟩ := running?_eq_some hturn
        exact h.onTurn ht hasking move
      · exact h
    | stop =>
      rw [handle]
      split
      · exact h
      · rw [onStop]
        split
        · next inFlight _ =>
          have hslots := h.toSlots.abort inFlight.turn
          exact ⟨⟨hslots.turn, hslots.wait, hslots.accounted⟩, h.heard, fun _ _ _ _ ↦ rfl⟩
        · exact ⟨⟨h.turn, h.wait, h.accounted⟩, h.heard, fun _ _ _ _ ↦ rfl⟩
    | shut =>
      rw [handle]
      split
      · exact ⟨⟨h.turn, h.wait, h.accounted⟩, h.heard, h.live⟩
      · exact h

theorem kept_start (store : EventStore) : Kept (.start store) :=
  Slots.kept { turn := rfl, wait := rfl, accounted := .nil } rfl

/-! ## What answers a request -/

/-- It names the call of the approval, or none. -/
def Names (callId : Option String) (p : PendingApproval) : Prop :=
  ∀ id, callId = some id → id = p.callId

/-- The move answers the pending approval. -/
def AnswersPending (d : DaemonState) (request : ℕ) (decision : ApprovalDecision) :
    DaemonMove → Prop
  | .command _ (.ok (.approve _ callId granted scope)) => d.closed = false ∧
      ∃ p, d.pending = some p ∧ Names callId p ∧ request = p.request ∧
        decision = verdict granted scope
  | .command _ (.ok (.interrupt _)) => d.closed = false ∧
      ∃ p, d.pending = some p ∧ request = p.request ∧ decision = cancelled
  | .disconnect name connection => d.remaining name connection = [] ∧
      ∃ p, d.pending = some p ∧ request = p.request ∧ decision = detached
  | _ => False

/-- The move asks for an approval, and is answered at once. -/
def AnswersAtOnce (d : DaemonState) (request : ℕ) (decision : ApprovalDecision) :
    DaemonMove → Prop
  | .turn id (.ask _) => request = d.asked ∧ ∃ turn, d.running? id = some turn ∧
      (d.clients = [] ∧ decision = unattended ∨
        d.clients ≠ [] ∧ turn.aborted = true ∧ decision = cancelled)
  | _ => False

/-- The move gives a request this answer. -/
def Answers (d : DaemonState) (request : ℕ) (decision : ApprovalDecision) (move : DaemonMove) :
    Prop :=
  d.crashed = false ∧
    (d.AnswersPending request decision move ∨ d.AnswersAtOnce request decision move)

theorem mem_settlePending {p : PendingApproval} {decision : ApprovalDecision}
    {x : ℕ × ApprovalDecision} : x ∈ (d.settlePending p decision).answers ↔
      x ∈ d.answers ∨ x.1 = p.request ∧ x.2 = decision := by
  rw [settlePending, settle, List.mem_append, List.mem_singleton, Prod.ext_iff]

theorem answers_spawnTurn (threadId text : String) :
    (d.spawnTurn opts threadId text).answers = d.answers := by
  rw [spawnTurn]
  dsimp only
  split <;> rfl

theorem answers_announce (threadId : String)
    (answer : Except StoreError HarnessEvent × EventStore) :
    (d.announce threadId answer).answers = d.answers := by
  rw [announce]
  dsimp only
  split <;> rfl

theorem names_iff {callId : Option String} {p : PendingApproval} :
    Names callId p ↔ (callId.all fun id ↦ decide (id = p.callId)) = true := by
  cases callId with
  | none => simp [Names]
  | some id => simp [Names]

theorem mem_approve {callId : Option String} {granted : Bool} {scope : Option ApprovalScope}
    {connection : ℕ} {x : ℕ × ApprovalDecision} :
    x ∈ (d.approve callId granted scope connection).answers ↔ x ∈ d.answers ∨
      ∃ p, d.pending = some p ∧ Names callId p ∧ x.1 = p.request ∧ x.2 = verdict granted scope := by
  rw [approve]
  split
  · next hp => simp [send, hp]
  · next p hp =>
    split
    · next hid => simp [mem_settlePending, hp, names_iff.mpr hid]
    · next hid => simp [send, hp, mt names_iff.mp hid]

theorem mem_interrupt (hslots : Slots d) {connection : ℕ} {x : ℕ × ApprovalDecision} :
    x ∈ (d.interrupt connection).answers ↔ x ∈ d.answers ∨
      ∃ p, d.pending = some p ∧ x.1 = p.request ∧ x.2 = cancelled := by
  rw [interrupt]
  split
  · next hfree =>
    have hturns := hslots.turns_eq_nil hfree
    have hp := hslots.pending_eq_none fun turn ht ↦ absurd ht (hturns ▸ List.not_mem_nil)
    simp [send, hp]
  · next inFlight hin =>
    dsimp only
    split
    · next p hp =>
      have hp : d.pending = some p := hp
      rw [mem_settlePending]
      simp [abort, hp]
    · next hp =>
      have hp : d.pending = none := hp
      simp [abort, hp]

theorem mem_onDisconnect {name : String} {connection : ℕ} {x : ℕ × ApprovalDecision} :
    x ∈ (d.onDisconnect name connection).answers ↔ x ∈ d.answers ∨
      d.remaining name connection = [] ∧
        ∃ p, d.pending = some p ∧ x.1 = p.request ∧ x.2 = detached := by
  rw [onDisconnect]
  dsimp only
  split
  · next p hp =>
    split
    · next hnil =>
      rw [mem_settlePending]
      simp [hp, List.isEmpty_iff.mp hnil]
    · next hnil => simp [hp, mt List.isEmpty_iff.mpr hnil]
  · next hp => simp [hp]

theorem mem_onCommand (hslots : Slots d) {connection : ℕ} {command : Except String Command}
    {x : ℕ × ApprovalDecision} (hopen : d.closed = false) :
    x ∈ (d.onCommand opts connection command).answers ↔
      x ∈ d.answers ∨ d.AnswersPending x.1 x.2 (.command connection command) := by
  rcases command with issue | command
  · exact (iff_of_eq (or_false _)).symm
  · cases command with
    | createThread name =>
      rw [onCommand, createThread, answers_announce]
      exact (iff_of_eq (or_false _)).symm
    | startTurn threadId text =>
      have hsame : (d.onCommand opts connection (.ok (.startTurn threadId text))).answers =
          d.answers := by
        rw [onCommand, startTurn]
        split
        · rfl
        · split
          · rfl
          · exact answers_spawnTurn threadId text
          · rfl
      rw [hsame]
      exact (iff_of_eq (or_false _)).symm
    | resumeThread threadId =>
      have hsame : (d.onCommand opts connection (.ok (.resumeThread threadId))).answers =
          d.answers := by
        rw [onCommand, resumeThread]
        split
        · rfl
        · split
          · exact answers_spawnTurn threadId ""
          · rfl
          · rfl
      rw [hsame]
      exact (iff_of_eq (or_false _)).symm
    | approve threadId callId granted scope =>
      rw [onCommand, mem_approve, AnswersPending, and_iff_right hopen]
    | interrupt threadId =>
      rw [onCommand, mem_interrupt hslots, AnswersPending, and_iff_right hopen]
    | unsupported type => exact (iff_of_eq (or_false _)).symm

theorem answers_onAppend {turn : Turn} {input : EventStore.AppendInput} :
    (d.onAppend opts turn input).answers = d.answers := by
  rw [onAppend]
  generalize EventStore.append _ _ _ d.store = answer
  split
  · dsimp only
    split <;> rfl
  · rfl

theorem mem_onAsk {turn : Turn} {request : ApprovalRequest} {x : ℕ × ApprovalDecision} :
    x ∈ (d.onAsk turn request).answers ↔ x ∈ d.answers ∨ x.1 = d.asked ∧
      (d.clients = [] ∧ x.2 = unattended ∨
        d.clients ≠ [] ∧ turn.aborted = true ∧ x.2 = cancelled) := by
  rw [onAsk]
  dsimp only
  split
  · next hnil =>
    rw [settle, List.mem_append, List.mem_singleton, Prod.ext_iff]
    simp [List.isEmpty_iff.mp hnil]
  · next hnil =>
    have hclients : d.clients ≠ [] := mt List.isEmpty_iff.mpr hnil
    split
    · next habort =>
      rw [settle, List.mem_append, List.mem_singleton, Prod.ext_iff]
      simp [hclients, habort]
    · next habort => simp [broadcast, hclients, habort]

/-- **Answers.** A move gives the answers it is said to give, and takes none back. -/
theorem mem_answers_step (hslots : Slots d) {move : DaemonMove} {x : ℕ × ApprovalDecision} :
    x ∈ (d.step opts move).answers ↔ x ∈ d.answers ∨ d.Answers x.1 x.2 move := by
  rw [step, Answers]
  split
  · next hcrashed => simp [hcrashed]
  · next hcrashed =>
    rw [and_iff_right (Bool.eq_false_iff.mpr hcrashed)]
    have hquiet : ∀ move : DaemonMove, (d.handle opts move).answers = d.answers →
        ¬ d.AnswersPending x.1 x.2 move → ¬ d.AnswersAtOnce x.1 x.2 move →
        (x ∈ (d.handle opts move).answers ↔ x ∈ d.answers ∨
          (d.AnswersPending x.1 x.2 move ∨ d.AnswersAtOnce x.1 x.2 move)) := by
      intro move hsame hpending hatOnce
      rw [hsame, or_iff_left (not_or.mpr ⟨hpending, hatOnce⟩)]
    cases move with
    | connect name connection =>
      refine hquiet _ ?_ id id
      rw [handle]
      split <;> rfl
    | disconnect name connection =>
      exact mem_onDisconnect.trans (or_congr_right (iff_of_eq (or_false _).symm))
    | command connection command =>
      rw [handle]
      split
      · next hclosed =>
        refine (or_iff_left fun h ↦ ?_).symm
        rcases h with h | h
        · rw [AnswersPending.eq_def] at h
          split at h <;> simp_all
        · exact h
      · next hopen =>
        exact (mem_onCommand hslots (Bool.eq_false_iff.mpr hopen)).trans
          (or_congr_right (iff_of_eq (or_false _).symm))
    | turn id move =>
      cases move with
      | ask request =>
        refine Iff.trans ?_ (or_congr_right (iff_of_eq (false_or _).symm))
        rw [handle, AnswersAtOnce]
        split
        · next turn hturn =>
          rw [onTurn, mem_onAsk]
          simp [hturn]
        · next hnone => simp [hnone]
      | append input =>
        refine hquiet _ ?_ (fun h ↦ h) (fun h ↦ h)
        rw [handle]
        split
        · exact answers_onAppend
        · rfl
      | finish result =>
        refine hquiet _ ?_ (fun h ↦ h) (fun h ↦ h)
        rw [handle]
        split <;> rfl
      | fail message =>
        refine hquiet _ ?_ (fun h ↦ h) (fun h ↦ h)
        rw [handle]
        split <;> rfl
    | stop =>
      refine hquiet _ ?_ id id
      rw [handle]
      split
      · rfl
      · rw [onStop]
        split <;> rfl
    | shut =>
      refine hquiet _ ?_ id id
      rw [handle]
      split <;> rfl

/-! ## Every run -/

/-- The state after these moves of a daemon started on a store. -/
def reached (opts : DaemonOptions) (store : EventStore) (moves : List DaemonMove) : DaemonState :=
  Run.run (DaemonState.step opts) moves (.start store)

variable {store : EventStore} {moves : List DaemonMove}

theorem kept_reached : Kept (reached opts store moves) :=
  Run.run_of_step (fun move _ h ↦ h.step move) moves (kept_start store)

theorem mem_answers_reached {request : ℕ} {decision : ApprovalDecision} :
    (request, decision) ∈ (reached opts store moves).answers ↔
      ∃ before move after, moves = before ++ move :: after ∧
        (reached opts store before).Answers request decision move := by
  have hkeep : ∀ (move : DaemonMove) (d : DaemonState), Kept d → Kept (d.step opts move) :=
    fun move d h ↦ h.step move
  constructor
  · intro h
    have hstep : ∀ (x : ℕ × ApprovalDecision) (move : DaemonMove) (d : DaemonState), Kept d →
        x ∈ (d.step opts move).answers → x ∈ d.answers ∨ d.Answers x.1 x.2 move :=
      fun x move d hd hx ↦ (mem_answers_step hd.toSlots).mp hx
    exact (Run.mem_run_cases hkeep hstep (kept_start store) h).resolve_left List.not_mem_nil
  · rintro ⟨before, move, after, rfl, h⟩
    exact Run.mem_run_of_mem hkeep
      (fun x move d hd hx ↦ (mem_answers_step hd.toSlots).mpr (.inl hx)) (kept_start store)
      ((mem_answers_step kept_reached.toSlots).mpr (.inr h))

/-- A turn waits for the answer to this request, and a client is there to give it. The turn has not
been aborted, and the answer names its call or none. -/
def Awaited (d : DaemonState) (request : ℕ) (callId : Option String) : Prop :=
  ∃ p turn, d.pending = some p ∧ p.request = request ∧ Names callId p ∧ d.turns = [turn] ∧
    turn.threadId = p.threadId ∧ turn.asking = some request ∧ turn.aborted = false ∧ d.clients ≠ []

theorem verdict_eq_approved {granted : Bool} {scope : Option ApprovalScope} {s : ApprovalScope}
    (h : ApprovalDecision.approved s = verdict granted scope) :
    granted = true ∧ s = scope.getD .once := by
  rw [verdict] at h
  split at h
  · next hgranted => exact ⟨hgranted, ApprovalDecision.approved.inj h⟩
  · cases h

/-- Only a command approves, and what it approves is awaited. -/
theorem Kept.approved (h : Kept d) {request : ℕ} {scope : ApprovalScope} {move : DaemonMove}
    (ha : d.Answers request (.approved scope) move) :
    ∃ connection threadId callId scope', scope = scope'.getD .once ∧
      move = .command connection (.ok (.approve threadId callId true scope')) ∧
      d.Awaited request callId := by
  obtain ⟨-, ha | ha⟩ := ha
  · rw [AnswersPending.eq_def] at ha
    split at ha
    · next connection threadId callId granted scope' =>
      obtain ⟨hopen, p, hp, hnames, rfl, hverdict⟩ := ha
      obtain ⟨rfl, hscope⟩ := verdict_eq_approved hverdict
      obtain ⟨turn, hturns, hthread, hasking⟩ := h.waiting hp
      refine ⟨connection, threadId, callId, scope', hscope, rfl, p, turn, hp, rfl, hnames, hturns,
        hthread, hasking, Bool.eq_false_iff.mpr fun habort ↦ ?_, h.heard (hp ▸ rfl)⟩
      have hclosed := h.live (hp ▸ rfl) turn (hturns ▸ List.mem_singleton_self _) habort
      exact Bool.false_ne_true (hopen.symm.trans hclosed)
    · obtain ⟨-, p, -, -, hdecision⟩ := ha
      cases hdecision
    · obtain ⟨-, p, -, -, hdecision⟩ := ha
      cases hdecision
    · exact ha.elim
  · rw [AnswersAtOnce.eq_def] at ha
    split at ha
    · obtain ⟨-, turn, -, ⟨-, hdecision⟩ | ⟨-, -, hdecision⟩⟩ := ha <;> cases hdecision
    · exact ha.elim

/-- What holds after these moves, whatever they are. -/
structure Governed (opts : DaemonOptions) (store : EventStore) (moves : List DaemonMove) :
    Prop where
  /-- The slots say what is the case, and every request is answered once or pending. -/
  kept : Kept (reached opts store moves)
  /-- The answers are those the moves gave. -/
  answered : ∀ request decision, (request, decision) ∈ (reached opts store moves).answers ↔
    ∃ before move after, moves = before ++ move :: after ∧
      (reached opts store before).Answers request decision move
  /-- What was approved, a command approved while it was awaited. -/
  granted : ∀ request scope, (request, .approved scope) ∈ (reached opts store moves).answers →
    ∃ before connection threadId callId scope' after, scope = scope'.getD .once ∧
      moves = before ++ .command connection (.ok (.approve threadId callId true scope')) :: after ∧
      (reached opts store before).Awaited request callId

/-- **What the daemon keeps**, in every order of connects, leavings, commands and steps of turns. -/
theorem governed (opts : DaemonOptions) (store : EventStore) (moves : List DaemonMove) :
    Governed opts store moves where
  kept := kept_reached
  answered _ _ := mem_answers_reached
  granted request scope h := by
    obtain ⟨before, move, after, rfl, ha⟩ := mem_answers_reached.mp h
    obtain ⟨connection, threadId, callId, scope', hscope, rfl, hawaited⟩ :=
      kept_reached.approved ha
    exact ⟨before, connection, threadId, callId, scope', after, hscope, rfl, hawaited⟩

def watchedOptions : DaemonOptions where
  workspaceRoot := "/repo"
  profile := .ask
  outside := Sessions.openOutside
  noRuntime _ := none
  storeMessage _ := "the store failed"

/-- A client has a thread created and a turn begun on it, and the turn asks for an approval. -/
def watchedMoves : List DaemonMove :=
  let ran : Command := .startTurn "thr_iiiiii" "run the tests"
  let asks : ApprovalRequest :=
    { turnId := "trn_000001", callId := "call_1", toolName := "shell", arguments := []
      argumentsJson := "\x7b\x7d", actionDigest := "", description := "run the tests"
      risk := .medium, reason := "ask" }
  let starts : EventStore.AppendInput :=
    { threadId := "thr_iiiiii", payload := .turnStarted "run the tests"
      actor := ⟨.user, "act_user01", none⟩, correlationId := "cor_000001", causationId := none
      turnId := some "trn_000001", itemId := none, permissionProfile := .ask }
  [.connect "tui" 1, .command 1 (.ok (.createThread none)), .command 1 (.ok ran),
    .turn 0 (.append starts), .turn 0 (.ask asks)]

/-- The call is approved once, by the client that is asked. A second answer comes too late. -/
example : (reached watchedOptions .empty (watchedMoves ++
    [.command 1 (.ok (.approve "thr_iiiiii" (some "call_1") true none)),
      .command 1 (.ok (.approve "thr_iiiiii" none false none))])).answers =
    [(0, .approved .once)] := by
  decide +kernel

end DaemonState

end QwenHarness.Daemon
