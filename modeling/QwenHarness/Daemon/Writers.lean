import QwenHarness.Daemon.Approvals

/-!
# Who writes to a thread

While a turn is in flight no other turn is, and a thread that is created meanwhile has an id of its
own. So the log of the turn's thread is the log the turn was begun on, and after it the events the
turn has appended itself: what the turn was told of the conversation is all there was, and a turn
that waited for an approval is gone on with and not begun anew.
-/

namespace QwenHarness

open EventStore (Recorded)

/-! ## The threads there are -/

/-- The threads with a row. -/
def EventStore.threadIds (s : EventStore) : List String :=
  s.projection.threads.rows.map ThreadRow.id

namespace Projection

variable {p p' : Projection} {e : HarnessEvent}

theorem threadIds_updateThread (p : Projection) (id : String) {f : ThreadRow → ThreadRow}
    (hf : ∀ r, (f r).id = r.id) :
    (p.updateThread id f hf).threads.rows.map ThreadRow.id = p.threads.rows.map ThreadRow.id :=
  Keyed.keys_modify p.threads id hf

theorem threadIds_touchThread (p : Projection) (e : HarnessEvent) :
    (p.touchThread e).threads.rows.map ThreadRow.id = p.threads.rows.map ThreadRow.id := by
  rw [touchThread, threadIds_updateThread]

theorem threads_updateTurn (p : Projection) (id : Option String) {f : TurnRow → TurnRow}
    (hf : ∀ r, (f r).id = r.id) : (p.updateTurn id f hf).threads = p.threads := by
  cases id <;> rfl

/-- An event adds no row of a thread but its own. -/
theorem threadIds_project (h : p.project e = some p') :
    p'.threads.rows.map ThreadRow.id = p.threads.rows.map ThreadRow.id ∨
      p'.threads.rows.map ThreadRow.id = p.threads.rows.map ThreadRow.id ++ [e.threadId] := by
  rw [project.eq_def] at h
  split at h
  · obtain ⟨threads, hthreads, rfl⟩ := Option.map_eq_some_iff.mp h
    right
    change threads.rows.map ThreadRow.id = _
    rw [Keyed.rows_of_insert hthreads, List.map_append, List.map_singleton]
  all_goals left
  · cases h
    rw [threadIds_touchThread, threadIds_updateThread]
  · cases h
    rw [threadIds_touchThread, threadIds_updateThread]
  · cases h
    rw [threadIds_touchThread, threadIds_updateThread]
  · cases h
    rw [threadIds_touchThread, threadIds_updateThread]
  · obtain ⟨turnId, -, h⟩ := Option.bind_eq_some_iff.mp h
    obtain ⟨turns, -, h⟩ := Option.bind_eq_some_iff.mp h
    cases h
    rw [threadIds_touchThread]
  · cases h
    rw [threadIds_touchThread, threads_updateTurn]
  · cases h
    rw [threadIds_touchThread, threads_updateTurn]
  · cases h
    rw [threadIds_touchThread, upsertItem]
  · cases h
    rw [threadIds_touchThread, upsertItem]
  · obtain ⟨turnId, -, h⟩ := Option.bind_eq_some_iff.mp h
    obtain ⟨sideEffects, -, h⟩ := Option.bind_eq_some_iff.mp h
    cases h
    rw [threadIds_touchThread]
  · cases h
    rw [threadIds_touchThread, updateSideEffect]
  · cases h
    rw [threadIds_touchThread, updateSideEffect]
  · cases h
    rw [threadIds_touchThread]

end Projection

namespace EventStore

/-- An append adds one event to this thread, or nothing. -/
structure Adds (s : EventStore) (threadId : String)
    (answer : Except StoreError HarnessEvent × EventStore) : Prop where
  refused : ∀ err, answer.1 = .error err → answer.2 = s
  recorded : ∀ e, answer.1 = .ok e → ∀ es, Recorded s es → Recorded answer.2 (es ++ [e])
  own : ∀ e, answer.1 = .ok e → e.threadId = threadId
  kept : ∀ id ∈ s.threadIds, id ∈ answer.2.threadIds
  added : ∀ id ∈ answer.2.threadIds, id ∈ s.threadIds ∨ id = threadId

theorem adds_append (r : Redactor) {input : AppendInput} {threadId : String}
    (hthread : input.threadId = threadId) (draw : Draw) (s : EventStore) :
    s.Adds threadId (append r input draw s) := by
  subst hthread
  cases heq : append r input draw s with
  | mk answer s' =>
    cases answer with
    | error err =>
      have hsame : (append r input draw s).2 = s := append_error (by rw [heq])
      rw [heq] at hsame
      have hsame : s' = s := hsame
      subst hsame
      exact ⟨fun _ _ ↦ rfl, fun _ he ↦ absurd he (by simp), fun _ he ↦ absurd he (by simp),
        fun _ h ↦ h, fun _ ↦ .inl⟩
    | ok e =>
      have happ := appended_of_append heq
      have hown : e.threadId = input.threadId := congrArg EventEnvelope.threadId happ.envelope
      have hids := Projection.threadIds_project happ.projected
      refine ⟨fun _ he ↦ absurd he (by simp), fun e' he' es hes ↦ ?_, fun e' he' ↦ ?_,
        fun id hid ↦ ?_, fun id hid ↦ ?_⟩
      · rw [← Except.ok.inj he']
        exact hes.append heq
      · rw [← Except.ok.inj he']
        exact hown
      · rcases hids with hids | hids
        · rw [threadIds, hids]
          exact hid
        · rw [threadIds, hids]
          exact List.mem_append_left _ hid
      · rw [threadIds] at hid
        rcases hids with hids | hids
        · rw [hids] at hid
          exact .inl hid
        · rw [hids, List.mem_append, List.mem_singleton, hown] at hid
          exact hid

end EventStore

namespace Daemon

open Sessions (PendingApprovalRecord historyOf pendingApprovalOf findPendingApproval
  reconstructHistory)

/-! ## What a turn was begun on -/

/-- What a turn is called with, where its thread has these events. A turn that waits for an approval
is resumed, and otherwise a new one is run. -/
def TurnInput.OfLog (threadId : String) (log : List HarnessEvent) : TurnInput → Prop
  | run _ history => history = historyOf log ∧ pendingApprovalOf threadId log = none
  | resume record history => history = historyOf log ∧ pendingApprovalOf threadId log = some record

/-- The log of the thread is what the turn was begun on, and what it has appended. -/
def Turn.Owns (turn : Turn) (store : EventStore) : Prop :=
  ∃ log, store.readThread turn.threadId = .ok (log ++ turn.appended.map HarnessEvent.stored) ∧
    turn.input.OfLog turn.threadId log

/-- What a turn works on. -/
def Turn.work (turn : Turn) : String × TurnInput × List HarnessEvent :=
  (turn.threadId, turn.input, turn.appended)

theorem Turn.Owns.of_work {turn turn' : Turn} {store : EventStore} (h : turn.Owns store)
    (hwork : turn'.work = turn.work) : turn'.Owns store := by
  obtain ⟨hthread, hrest⟩ := Prod.mk.inj hwork
  obtain ⟨hinput, happended⟩ := Prod.mk.inj hrest
  rw [Turn.Owns, hthread, hinput, happended]
  exact h

/-- An event of another thread leaves a turn its own. -/
theorem Turn.Owns.append {turn : Turn} {store store' : EventStore} {es : List HarnessEvent}
    {e : HarnessEvent} (h : turn.Owns store) (hes : Recorded store es)
    (hes' : Recorded store' (es ++ [e])) (hother : e.threadId ≠ turn.threadId) :
    turn.Owns store' := by
  obtain ⟨log, hread, hinput⟩ := h
  refine ⟨log, ?_, hinput⟩
  rw [hes.readThread] at hread
  rw [hes'.readThread, List.filter_append, List.filter_cons, if_neg (by simpa using hother),
    List.filter_nil, List.append_nil, hread]

/-- An event the turn appends. -/
theorem Turn.Owns.append_own {turn : Turn} {store store' : EventStore} {es : List HarnessEvent}
    {e : HarnessEvent} (h : turn.Owns store) (hes : Recorded store es)
    (hes' : Recorded store' (es ++ [e])) (hown : e.threadId = turn.threadId) :
    Turn.Owns { turn with appended := turn.appended ++ [e] } store' := by
  obtain ⟨log, hread, hinput⟩ := h
  refine ⟨log, ?_, hinput⟩
  rw [hes.readThread] at hread
  change store'.readThread turn.threadId =
    .ok (log ++ (turn.appended ++ [e]).map HarnessEvent.stored)
  rw [hes'.readThread, List.filter_append, List.map_append, Except.ok.inj hread, List.map_append,
    ← List.append_assoc]
  simp [hown]

namespace DaemonState

variable {opts : DaemonOptions} {d d' : DaemonState}

/-- No thread has an id that is still to be drawn. -/
def FreshThreads (opts : DaemonOptions) (store : EventStore) (drawn : ℕ) : Prop :=
  ∀ n, drawn ≤ n → opts.outside.ids.next n "thr" ∉ store.threadIds

/-- Every turn owns its thread. -/
structure Owned (opts : DaemonOptions) (d : DaemonState) : Prop where
  recorded : ∃ es, Recorded d.store es
  fresh : FreshThreads opts d.store d.drawn
  known : ∀ turn ∈ d.turns, turn.threadId ∈ d.store.threadIds
  owns : ∀ turn ∈ d.turns, turn.Owns d.store

/-- The store is as it was, and what the turns work on. -/
theorem Owned.of_work (h : Owned opts d) (hstore : d'.store = d.store) (hdrawn : d.drawn ≤ d'.drawn)
    (hturns : ∀ turn' ∈ d'.turns, ∃ turn ∈ d.turns, turn'.work = turn.work) : Owned opts d' where
  recorded := hstore ▸ h.recorded
  fresh n hn := by
    rw [hstore]
    exact h.fresh n (hdrawn.trans hn)
  known turn' ht' := by
    obtain ⟨turn, ht, hwork⟩ := hturns turn' ht'
    rw [hstore, (Prod.mk.inj hwork).1]
    exact h.known turn ht
  owns turn' ht' := by
    obtain ⟨turn, ht, hwork⟩ := hturns turn' ht'
    rw [hstore]
    exact (h.owns turn ht).of_work hwork

theorem work_of_map {f : Turn → Turn} (hf : ∀ turn, (f turn).work = turn.work) {turns : List Turn}
    {turn' : Turn} (ht' : turn' ∈ turns.map f) : ∃ turn ∈ turns, turn'.work = turn.work := by
  obtain ⟨turn, ht, rfl⟩ := List.mem_map.mp ht'
  exact ⟨turn, ht, hf turn⟩

theorem work_answered (turn : Turn) (request : ℕ) : (turn.answered request).work = turn.work := by
  rw [Turn.answered]
  split <;> rfl

theorem Owned.settle (h : Owned opts d) (request : ℕ) (decision : ApprovalDecision) :
    Owned opts (d.settle request decision) :=
  h.of_work rfl le_rfl fun _ ht' ↦ work_of_map (fun turn ↦ work_answered turn request) ht'

theorem Owned.settlePending (h : Owned opts d) (p : PendingApproval) (decision : ApprovalDecision) :
    Owned opts (d.settlePending p decision) :=
  Owned.settle (d := { d with pending := none }) ⟨h.recorded, h.fresh, h.known, h.owns⟩ _ _

theorem Owned.abort (h : Owned opts d) (turn : ℕ) : Owned opts (d.abort turn) :=
  h.of_work rfl le_rfl fun _ ht' ↦ work_of_map (fun t ↦ by split <;> rfl) ht'

/-! ## Appending -/

/-- A thread is created under a fresh id. -/
theorem Owned.announce (h : Owned opts d)
    {answer : Except StoreError HarnessEvent × EventStore}
    (hadds : d.store.Adds (opts.outside.ids.next d.drawn "thr") answer) :
    Owned opts (d.announce (opts.outside.ids.next d.drawn "thr") answer) := by
  have hother : ∀ turn ∈ d.turns, opts.outside.ids.next d.drawn "thr" ≠ turn.threadId :=
    fun turn ht heq ↦ h.fresh d.drawn le_rfl (heq ▸ h.known turn ht)
  have hfresh : FreshThreads opts answer.2 (d.drawn + 3) := by
    intro n hn hmem
    rcases hadds.added _ hmem with hmem | heq
    · exact h.fresh n (by omega) hmem
    · have hsame : n = d.drawn := opts.outside.ids.fresh "thr" heq
      omega
  have hknown : ∀ turn ∈ d.turns, turn.threadId ∈ answer.2.threadIds :=
    fun turn ht ↦ hadds.kept _ (h.known turn ht)
  obtain ⟨es, hes⟩ := h.recorded
  have howned : Owned opts { d with store := answer.2, drawn := d.drawn + 3 } := by
    cases hanswer : answer.1 with
    | error err =>
      have hsame := hadds.refused err hanswer
      exact ⟨⟨es, hsame ▸ hes⟩, hfresh, hknown, fun turn ht ↦ hsame ▸ h.owns turn ht⟩
    | ok e =>
      have hes' := hadds.recorded e hanswer es hes
      refine ⟨⟨_, hes'⟩, hfresh, hknown, fun turn ht ↦ (h.owns turn ht).append hes hes' ?_⟩
      rw [hadds.own e hanswer]
      exact hother turn ht
  rw [DaemonState.announce]
  dsimp only
  split <;> exact ⟨howned.recorded, howned.fresh, howned.known, howned.owns⟩

/-- The turn in flight appends. -/
theorem Owned.onAppend (h : Owned opts d) {turn : Turn} (hturns : d.turns = [turn])
    (input : EventStore.AppendInput) : Owned opts (d.onAppend opts turn input) := by
  have hadds := EventStore.adds_append opts.outside.redactor
    (rfl : { input with threadId := turn.threadId }.threadId = turn.threadId)
    (opts.outside.draw d.drawn) d.store
  have hturn : turn ∈ d.turns := hturns ▸ List.mem_singleton_self _
  have hknown := h.known turn hturn
  have howns := h.owns turn hturn
  obtain ⟨es, hes⟩ := h.recorded
  rw [DaemonState.onAppend]
  generalize EventStore.append _ _ _ d.store = answer at hadds ⊢
  have hfresh : FreshThreads opts answer.2 (d.drawn + 1) := by
    intro n hn hmem
    rcases hadds.added _ hmem with hmem | heq
    · exact h.fresh n (by omega) hmem
    · exact h.fresh n (by omega) (heq ▸ hknown)
  split
  · dsimp only
    split
    · next e hanswer =>
      have hes' := hadds.recorded e hanswer es hes
      have hwritten : (DaemonState.stored { d with store := answer.2, drawn := d.drawn + 1 } turn
          e).turns = [{ turn with appended := turn.appended ++ [e] }] := by
        simp [DaemonState.stored, broadcast, hturns]
      refine ⟨⟨_, hes'⟩, hfresh, fun t ht ↦ ?_, fun t ht ↦ ?_⟩
      · rw [hwritten, List.mem_singleton] at ht
        rw [ht]
        exact hadds.kept _ hknown
      · rw [hwritten, List.mem_singleton] at ht
        rw [ht]
        exact howns.append_own hes hes' (hadds.own e hanswer)
    · next err hanswer =>
      have hsame := hadds.refused err hanswer
      exact ⟨⟨es, hsame ▸ hes⟩, hfresh, fun t ht ↦ hadds.kept _ (h.known t ht),
        fun t ht ↦ hsame ▸ h.owns t ht⟩
  · exact h

/-! ## Beginning -/

theorem ofLog_of_turnInput {threadId text : String} {es : List HarnessEvent} {input : TurnInput}
    (hes : Recorded d.store es) (h : d.turnInput opts threadId text = .ok input) :
    ∃ log, d.store.readThread threadId = .ok log ∧ input.OfLog threadId log := by
  have hread := hes.readThread threadId
  refine ⟨_, hread, ?_⟩
  rw [turnInput, reconstructHistory, findPendingApproval, hread] at h
  split at h
  · cases h
  · split at h
    · next hhistory hpending =>
      cases h
      exact ⟨(Except.ok.inj hhistory).symm, Except.ok.inj hpending⟩
    · next hhistory hpending =>
      cases h
      exact ⟨(Except.ok.inj hhistory).symm, Except.ok.inj hpending⟩
    · cases h
    · cases h

theorem Owned.spawnTurn (h : Owned opts d) {threadId : String}
    (hthread : (d.store.getThread threadId).isSome) (text : String) :
    Owned opts (d.spawnTurn opts threadId text) := by
  obtain ⟨es, hes⟩ := h.recorded
  have hknown : threadId ∈ d.store.threadIds := by
    obtain ⟨row, hrow⟩ := Option.isSome_iff_exists.mp hthread
    obtain ⟨hmem, hid⟩ := Keyed.find?_eq_some_iff.mp hrow
    exact hid ▸ List.mem_map_of_mem hmem
  rw [DaemonState.spawnTurn]
  dsimp only
  split
  · next input hinput =>
    obtain ⟨log, hlog, hof⟩ := ofLog_of_turnInput hes hinput
    refine ⟨h.recorded, fun n hn ↦ h.fresh n (by dsimp only at hn; omega), ?_, ?_⟩
    · refine List.forall_mem_append.mpr ⟨h.known, List.forall_mem_singleton.mpr hknown⟩
    · refine List.forall_mem_append.mpr ⟨h.owns, List.forall_mem_singleton.mpr ⟨log, ?_, hof⟩⟩
      rw [List.map_nil, List.append_nil]
      exact hlog
  · exact ⟨h.recorded, h.fresh, h.known, h.owns⟩

/-! ## Every run -/

theorem Owned.send (h : Owned opts d) (connection : ℕ) (frame : DaemonFrame) :
    Owned opts (d.send connection frame) := ⟨h.recorded, h.fresh, h.known, h.owns⟩

theorem Owned.onCommand (h : Owned opts d) (connection : ℕ) (command : Except String Command) :
    Owned opts (d.onCommand opts connection command) := by
  rcases command with issue | command
  · exact h.send _ _
  · cases command with
    | createThread name =>
      refine h.announce (EventStore.adds_append _ ?_ _ _)
      rfl
    | startTurn threadId text =>
      rw [DaemonState.onCommand, startTurn]
      split
      · exact h.send _ _
      · next hrun =>
        split
        · exact h.send _ _
        · exact h.spawnTurn (cannotRun_eq_none hrun).2 text
        · exact ⟨h.recorded, h.fresh, h.known, h.owns⟩
    | resumeThread threadId =>
      rw [DaemonState.onCommand, resumeThread]
      split
      · exact h.send _ _
      · next hrun =>
        split
        · exact h.spawnTurn (cannotRun_eq_none hrun).2 ""
        · exact h.send _ _
        · exact ⟨h.recorded, h.fresh, h.known, h.owns⟩
    | approve threadId callId granted scope =>
      rw [DaemonState.onCommand, approve]
      split
      · exact h.send _ _
      · split
        · exact h.settlePending _ _
        · exact h.send _ _
    | interrupt threadId =>
      rw [DaemonState.onCommand, interrupt]
      split
      · exact h.send _ _
      · dsimp only
        split
        · exact (h.abort _).settlePending _ _
        · exact h.abort _
    | unsupported type => exact h.send _ _

theorem Owned.onTurn (h : Owned opts d) (hslots : Slots d) {turn : Turn} (ht : turn ∈ d.turns)
    (move : TurnMove) : Owned opts (d.onTurn opts turn move) := by
  have hremoved : ∀ t ∈ (d.removeTurn turn).turns, ∃ t' ∈ d.turns, t.work = t'.work :=
    fun t ht' ↦ ⟨t, List.mem_of_mem_filter ht', rfl⟩
  cases move with
  | append input => exact h.onAppend (hslots.eq_singleton ht).1 input
  | ask request =>
    rw [DaemonState.onTurn, onAsk]
    dsimp only
    split
    · exact Owned.settle (d := { d with asked := d.asked + 1 })
        ⟨h.recorded, h.fresh, h.known, h.owns⟩ _ _
    · split
      · exact Owned.settle (d := { d with asked := d.asked + 1 })
          ⟨h.recorded, h.fresh, h.known, h.owns⟩ _ _
      · exact h.of_work rfl le_rfl fun t ht' ↦ work_of_map (fun t ↦ by split <;> rfl) ht'
  | finish result => exact h.of_work rfl le_rfl hremoved
  | fail message => exact h.of_work rfl le_rfl hremoved

/-- **Step.** Every move leaves every turn its thread. -/
theorem Owned.step (h : Owned opts d) (hslots : Slots d) (move : DaemonMove) :
    Owned opts (d.step opts move) := by
  rw [DaemonState.step]
  split
  · exact h
  · cases move with
    | connect name connection =>
      rw [handle]
      split <;> exact ⟨h.recorded, h.fresh, h.known, h.owns⟩
    | disconnect name connection =>
      rw [handle, DaemonState.onDisconnect]
      dsimp only
      split
      · split
        · exact Owned.settlePending (d := { d with clients := d.remaining name connection })
            ⟨h.recorded, h.fresh, h.known, h.owns⟩ _ _
        · exact ⟨h.recorded, h.fresh, h.known, h.owns⟩
      · exact ⟨h.recorded, h.fresh, h.known, h.owns⟩
    | command connection command =>
      rw [handle]
      split
      · exact h
      · exact h.onCommand connection command
    | turn id move =>
      rw [handle]
      split
      · next turn hturn => exact h.onTurn hslots (running?_eq_some hturn).1 move
      · exact h
    | stop =>
      rw [handle]
      split
      · exact h
      · rw [onStop]
        split
        · have habort := h.abort
          next inFlight _ =>
          exact ⟨(habort inFlight.turn).recorded, (habort inFlight.turn).fresh,
            (habort inFlight.turn).known, (habort inFlight.turn).owns⟩
        · exact ⟨h.recorded, h.fresh, h.known, h.owns⟩
    | shut =>
      rw [handle]
      split <;> exact ⟨h.recorded, h.fresh, h.known, h.owns⟩

variable {store : EventStore} {es : List HarnessEvent}

theorem owned_start (hrecorded : Recorded store es) (hfresh : FreshThreads opts store 0) :
    Owned opts (.start store) where
  recorded := ⟨es, ⟨hrecorded.rows, hrecorded.ok, hrecorded.numbered⟩⟩
  fresh := hfresh
  known _ ht := absurd ht List.not_mem_nil
  owns _ ht := absurd ht List.not_mem_nil

/-- **A turn has its thread to itself.** At every point of every run, the log of the thread of a
turn under way is the log it was begun on and what it has appended since. It was told the
conversation of that log, and it goes on with the turn that waits there, if one does. -/
theorem turn_owns_thread (hrecorded : Recorded store es) (hfresh : FreshThreads opts store 0)
    (moves : List DaemonMove) :
    ∀ turn ∈ (reached opts store moves).turns, turn.Owns (reached opts store moves).store := by
  have hstep : ∀ (move : DaemonMove) (d : DaemonState), Kept d ∧ Owned opts d →
      Kept (d.step opts move) ∧ Owned opts (d.step opts move) :=
    fun move d h ↦ ⟨h.1.step move, h.2.step h.1.toSlots move⟩
  exact (Run.run_of_step hstep moves ⟨kept_start store, owned_start hrecorded hfresh⟩).2.owns

/-- The turn of a thread that was created, after it has begun to append. -/
theorem turn_owns_thread_watched :
    ((reached watchedOptions .empty watchedMoves).turns.map fun turn ↦ turn.appended.length) = [1] ∧
      ∀ turn ∈ (reached watchedOptions .empty watchedMoves).turns,
        turn.Owns (reached watchedOptions .empty watchedMoves).store :=
  ⟨by decide +kernel, turn_owns_thread EventStore.recorded_empty
    (fun _ _ ↦ List.not_mem_nil) watchedMoves⟩

end DaemonState

end Daemon

end QwenHarness
