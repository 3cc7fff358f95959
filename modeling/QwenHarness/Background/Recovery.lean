import QwenHarness.Background.Manager
import QwenHarness.Cli.Operator

/-!
# Background work and the recovery guard

Processes with a manager come and go over one store. Each can die at any point, and at any point
another process recovers what was interrupted, cancels a task or resolves a row. The law is that the
ledger lets the work of a task run again, once it was started, only if that run itself failed or an
operator found that it failed.

The row of a task says that nothing was started until the task is settled, and a task that is
stopped is settled as failed before its run has ended. The law is broken by every step that is not
`Safe`, and by no other.
-/

namespace QwenHarness.Background

open Cli (CancelInput ResolveInput cancelBackground cancelRecord resolveSideEffect
  resolveSideEffect_error resolveSideEffect_ok)
open EventStore (Draw append)

/-! ## The system -/

/-- A call of `runner.start`. -/
structure Launch where
  task : ℕ
  taskId : String
  /-- The row of the task. -/
  sideEffectId : Option String
deriving DecidableEq, Repr

def Launch.key (l : Launch) : String := backgroundIdempotencyKey l.taskId

/-- The store, and what happened outside it. -/
structure Books where
  store : EventStore
  launches : List Launch
  /-- The tasks whose run exited and was not ok. -/
  exited : List ℕ
  /-- The rows an operator resolved as failed. -/
  resolved : List String

structure System where
  books : Books
  heap : Heap
  manager : Option Manager

def System.initial (s : EventStore) : System := ⟨⟨s, [], [], []⟩, [], none⟩

inductive Step where
  /-- A new process. -/
  | boot (ctx : SinkContext) (limit hardStopBytes : ℕ)
  | die
  | start (input : StartInput) (answers : Answers)
  | stop (id : String)
  | provideInput (id : String)
  | awaitTask (id : String)
  | checkWatchdogs (now : ℤ) (answers : Answers)
  | callback (task : ℕ) (answers : Answers) (callback : Callback)
  | work (answers : Answers) (draw : Draw)
  | runnerReturns
  | runnerThrows
  | recoverInterrupted
  | cancel (input : CancelInput) (draw : Draw)
  | resolve (input : ResolveInput) (draw : Draw)

/-- A call or a callback comes in, if the manager is open for it. -/
def System.calls (σ : System) (f : Manager → Heap × Manager) : System :=
  match σ.manager with
  | some m =>
    if m.isOpen then { σ with heap := (f m).1, manager := some (f m).2 } else σ
  | none => σ

/-- The store answers the manager, which goes on or throws. -/
def System.answered (σ : System) (heap : Heap) (m : Manager) :
    Except StoreError HarnessEvent × EventStore → System
  | (.ok _, s) => ⟨{ σ.books with store := s }, heap, some m⟩
  | (.error _, s) => ⟨{ σ.books with store := s }, heap, some m.throws⟩

def System.work (σ : System) (r : Redactor) (m : Manager) (answers : Answers) (draw : Draw) :
    System :=
  match m.work σ.heap answers with
  | (.none, heap, m') => { σ with heap, manager := some m' }
  | (.runnerStart task taskId, heap, m') =>
    { books :=
        { σ.books with
          launches := σ.books.launches ++ [⟨task, taskId, m.sideEffectIds.lookup taskId⟩] }
      heap, manager := some m' }
  | (.recordStart taskId category sideEffectId, heap, m') =>
    σ.answered heap m' (recordStart r m.ctx taskId category sideEffectId draw σ.books.store)
  | (.recordStarted sideEffectId, heap, m') =>
    σ.answered heap m' (recordStarted r m.ctx sideEffectId draw σ.books.store)
  | (.recordSettled sideEffectId taskId ok, heap, m') =>
    σ.answered heap m' (recordSettled r m.ctx sideEffectId taskId ok draw σ.books.store)

/-- A callback for a run of this process. An exit is written down, whatever the manager does. -/
def System.callback (σ : System) (task : ℕ) (answers : Answers) (callback : Callback) : System :=
  match σ.manager with
  | some m =>
    if m.isOpen && decide (m.base ≤ task) && decide (task ∈ σ.books.launches.map Launch.task) then
      let (heap, m') := m.callback σ.heap task answers callback
      { books := match callback with
          | .exit ⟨false, _, _⟩ => { σ.books with exited := task :: σ.books.exited }
          | _ => σ.books
        heap, manager := some m' }
    else σ
  | none => σ

/-- An operator resolves a row. A finding that it failed is written down. -/
def Books.resolve (b : Books) (r : Redactor) (input : ResolveInput) (draw : Draw) : Books :=
  match resolveSideEffect r input draw b.store with
  | (.ok .knownFailed, s) =>
    { b with store := s, resolved := input.sideEffectId :: b.resolved }
  | (_, s) => { b with store := s }

def System.step (r : Redactor) (σ : System) : Step → System
  | .boot ctx limit hardStopBytes =>
    match σ.manager with
    | some _ => σ
    | none => { σ with manager := some (.new ctx limit hardStopBytes σ.heap.length) }
  | .die => { σ with manager := none }
  | .start input answers => σ.calls fun m ↦ m.start σ.heap input answers
  | .stop id => σ.calls fun m ↦ (σ.heap, m.stop σ.heap id)
  | .provideInput id => σ.calls fun m ↦ m.provideInput σ.heap id
  | .awaitTask id => σ.calls fun m ↦ m.awaitTask σ.heap id
  | .checkWatchdogs now answers => σ.calls fun m ↦ m.checkWatchdogs σ.heap now answers
  | .callback task answers callback => σ.callback task answers callback
  | .work answers draw =>
    match σ.manager with
    | some m => σ.work r m answers draw
    | none => σ
  | .runnerReturns =>
    match σ.manager with
    | some m => { σ with heap := (m.runnerReturns σ.heap).1, manager := (m.runnerReturns σ.heap).2 }
    | none => σ
  | .runnerThrows => { σ with manager := σ.manager.map Manager.runnerThrows }
  | .recoverInterrupted =>
    { σ with books := { σ.books with store := σ.books.store.recoverInterrupted.2 } }
  | .cancel input draw =>
    { σ with books := { σ.books with store := (cancelBackground r input draw σ.books.store).2 } }
  | .resolve input draw => { σ with books := σ.books.resolve r input draw }

def System.run (r : Redactor) (σ : System) (steps : List Step) : System :=
  steps.foldl (System.step r) σ

/-! ## The law -/

namespace Books

variable (b : Books)

/-- The run itself failed, or an operator found that it failed. -/
def Excused (l : Launch) : Prop := l.task ∈ b.exited ∨ ∃ id ∈ l.sideEffectId, id ∈ b.resolved

/-- Work that was started may run again only if it is known to have failed. -/
def Lawful : Prop :=
  ∀ l ∈ b.launches, (b.store.mayExecute l.key).allowed = true → b.Excused l

/-- A task that was started and may not run again. -/
def AtStake (l : Launch) : Prop := l ∈ b.launches ∧ ¬ b.Excused l

/-- The newest row under the key of a task at stake is never this one. -/
def Unaffected (sideEffectId : String) : Prop :=
  ∀ l, b.AtStake l → ∀ row ∈ b.store.latestAttempt l.key, row.id ≠ sideEffectId

/-- A row added now would not become the newest under the key of a task at stake. -/
def Hidden (idempotencyKey : String) (now : ℤ) : Prop :=
  ∀ l, b.AtStake l → idempotencyKey = l.key →
    ∃ row ∈ b.store.projection.sideEffects.rows, row.idempotencyKey = l.key ∧ now ≤ row.createdAt

/-- The newest row of a key is in the way: it is that of an attempt that was started, and that did
not fail. -/
def Barred (idempotencyKey : String) : Prop :=
  ∃ row ∈ b.store.latestAttempt idempotencyKey,
    row.state = .inFlight ∨ row.state = .knownComplete ∨ row.state = .indeterminate

end Books

/-- What makes the answer of a request keep the law. -/
def Request.Safe (r : Redactor) (b : Books) (m : Manager) (draw : Draw) : Request → Prop
  | .runnerStart task taskId =>
    b.Excused ⟨task, taskId, m.sideEffectIds.lookup taskId⟩ ∨
      b.Barred (backgroundIdempotencyKey taskId)
  | .recordStart taskId category sideEffectId =>
    (Background.recordStart r m.ctx taskId category sideEffectId draw b.store).1.isOk = true →
      b.Hidden (r.redact (backgroundIdempotencyKey taskId)) draw.now
  | .recordSettled sideEffectId taskId ok =>
    ok = false → (Background.recordSettled r m.ctx sideEffectId taskId ok draw b.store).1.isOk = true →
      b.Unaffected sideEffectId
  | .none | .recordStarted _ => True

/-- What makes a step keep the law: a task is started only behind the row of an earlier attempt, and
neither a new intent nor a settlement as failed reaches the key of a task at stake. -/
def Step.Safe (r : Redactor) (σ : System) : Step → Prop
  | .work answers draw =>
    ∀ m ∈ σ.manager, (m.work σ.heap answers).1.Safe r σ.books m draw
  | .cancel input draw =>
    ∀ record, cancelRecord σ.books.store input = .ok (some record) →
      (cancelBackground r input draw σ.books.store).1 = .ok .cancelled →
        σ.books.Unaffected record.sideEffectId
  | .resolve input draw =>
    (resolveSideEffect r input draw σ.books.store).1 = .ok .knownFailed →
      ∀ l, σ.books.AtStake l → l.sideEffectId ≠ some input.sideEffectId →
        ∀ row ∈ σ.books.store.latestAttempt l.key, row.id ≠ input.sideEffectId
  | _ => True

def AllSafe (r : Redactor) : System → List Step → Prop
  | _, [] => True
  | σ, step :: steps => step.Safe r σ ∧ AllSafe r (σ.step r step) steps

/-! ## One step -/

section Steps

variable {r : Redactor} {b : Books} {s : EventStore} {l : Launch}

theorem Books.Lawful.not_allowed (h : b.Lawful) (hl : b.AtStake l) :
    (b.store.mayExecute l.key).allowed = false := by
  rw [← Bool.not_eq_true]
  exact fun ha ↦ hl.2 (h l hl.1 ha)

/-- Another store keeps the law if it bars every task at stake. -/
theorem lawful_store_iff :
    Books.Lawful { b with store := s } ↔
      ∀ l, b.AtStake l → (s.mayExecute l.key).allowed = false := by
  constructor
  · intro h l hl
    rw [← Bool.not_eq_true]
    exact fun ha ↦ hl.2 (h l hl.1 ha)
  · intro h l hl ha
    by_contra hex
    exact absurd ((h l ⟨hl, hex⟩).symm.trans ha) (by decide)

theorem barred_iff {k : String} : b.Barred k ↔ ¬ (b.store.mayExecute k).allowed = true := by
  rw [EventStore.allowed_iff, Books.Barred]
  push Not
  refine exists_congr fun row ↦ and_congr_right fun _ ↦ ?_
  cases row.state <;> decide

/-- An update after which no row lets its key run that did not before keeps the law. -/
theorem lawful_of_map (h : b.Lawful) {f : SideEffectRow → SideEffectRow}
    (hkey : ∀ x, (f x).idempotencyKey = x.idempotencyKey)
    (htime : ∀ x, (f x).createdAt = x.createdAt)
    (hf : ∀ x, (f x).state.allows = true → x.state.allows = true)
    (hrows : s.projection.sideEffects.rows = b.store.projection.sideEffects.rows.map f) :
    Books.Lawful { b with store := s } := by
  rw [lawful_store_iff]
  intro l hl
  have hbarred := h.not_allowed hl
  rw [← Bool.not_eq_true] at hbarred ⊢
  rw [EventStore.allowed_map hkey htime hrows]
  rw [EventStore.allowed_iff] at hbarred
  exact fun ha ↦ hbarred fun row hrow ↦ hf row (ha row hrow)

/-- The update of a settlement. -/
def settleRow (sideEffectId : String) (state : SideEffectState) (digest : Option String) (now : ℤ)
    (x : SideEffectRow) : SideEffectRow :=
  if x.id = sideEffectId then { x with state, resultDigest := digest, settledAt := some now } else x

/-- A settlement lets the key of a task at stake run if it is a failure and falls on the newest row
of the key. -/
theorem allowed_settle_iff (h : b.Lawful) (hl : b.AtStake l) {sideEffectId : String}
    {state : SideEffectState} {digest : Option String} {now : ℤ}
    (hrows : s.projection.sideEffects.rows =
      b.store.projection.sideEffects.rows.map (settleRow sideEffectId state digest now)) :
    (s.mayExecute l.key).allowed = false ↔
      (state.allows = true → ∀ row ∈ b.store.latestAttempt l.key, row.id ≠ sideEffectId) := by
  have hkey : ∀ x, (settleRow sideEffectId state digest now x).idempotencyKey = x.idempotencyKey := by
    intro x
    unfold settleRow
    split <;> rfl
  have htime : ∀ x, (settleRow sideEffectId state digest now x).createdAt = x.createdAt := by
    intro x
    unfold settleRow
    split <;> rfl
  have hbarred := h.not_allowed hl
  rw [← Bool.not_eq_true, EventStore.allowed_iff] at hbarred
  push Not at hbarred
  obtain ⟨row, hrow, hstate⟩ := hbarred
  rw [Option.mem_def] at hrow
  rw [← Bool.not_eq_true, EventStore.allowed_map hkey htime hrows, hrow]
  simp only [Option.mem_def, Option.some.injEq, forall_eq', settleRow]
  by_cases hid : row.id = sideEffectId
  · rw [if_pos hid]
    simp [hid]
  · rw [if_neg hid]
    simp [hid, hstate]

theorem lawful_settle_iff (h : b.Lawful) {sideEffectId : String} {state : SideEffectState}
    {digest : Option String} {now : ℤ}
    (hrows : s.projection.sideEffects.rows =
      b.store.projection.sideEffects.rows.map (settleRow sideEffectId state digest now)) :
    Books.Lawful { b with store := s } ↔ (state.allows = true → b.Unaffected sideEffectId) := by
  rw [lawful_store_iff]
  constructor
  · exact fun hall hs l hl ↦ (allowed_settle_iff h hl hrows).mp (hall l hl) hs
  · exact fun hall l hl ↦ (allowed_settle_iff h hl hrows).mpr fun hs ↦ hall hs l hl

/-- Only the store of the books may change, and a failed append leaves it. -/
theorem lawful_of_append_error {input : EventStore.AppendInput} {draw : Draw} {err : StoreError}
    (h : b.Lawful) (ha : (append r input draw b.store).1 = .error err) :
    Books.Lawful { b with store := (append r input draw b.store).2 } := by
  rw [EventStore.append_error ha]
  exact h

variable {ctx : SinkContext} {taskId sideEffectId : String} {draw : Draw}

theorem lawful_recordStart_iff (h : b.Lawful) {category : BackgroundCategory} :
    Books.Lawful { b with
        store := (recordStart r ctx taskId category sideEffectId draw b.store).2 } ↔
      ((recordStart r ctx taskId category sideEffectId draw b.store).1.isOk = true →
        b.Hidden (r.redact (backgroundIdempotencyKey taskId)) draw.now) := by
  cases ha : (recordStart r ctx taskId category sideEffectId draw b.store).1 with
  | error err =>
    have hlawful := lawful_of_append_error h ha
    exact iff_of_true hlawful fun hok ↦ absurd hok Bool.false_ne_true
  | ok e =>
    obtain ⟨turnId, hrows⟩ := EventStore.ledger_of_intent (Prod.ext ha rfl) rfl
    rw [lawful_store_iff]
    refine Iff.trans ?_ (forall_prop_of_true (rfl : (Except.ok e).isOk = true)).symm
    refine forall₂_congr fun l hl ↦ ?_
    have hbarred := h.not_allowed hl
    rw [← Bool.not_eq_true] at hbarred ⊢
    have hnew := EventStore.allowed_concat (k := l.key) rfl hrows
    rw [or_iff_left hbarred] at hnew
    refine (not_congr hnew).trans ?_
    rw [not_and]
    refine imp_congr_right fun _ ↦ ?_
    push Not
    rfl

theorem lawful_recordStarted (h : b.Lawful) :
    Books.Lawful { b with store := (recordStarted r ctx sideEffectId draw b.store).2 } := by
  cases ha : (recordStarted r ctx sideEffectId draw b.store).1 with
  | error err => exact lawful_of_append_error h ha
  | ok e =>
    have hrows := EventStore.ledger_of_started (Prod.ext ha rfl) rfl
    refine lawful_of_map h (fun x ↦ ?_) (fun x ↦ ?_) (fun x ↦ ?_) hrows
    · split <;> rfl
    · split <;> rfl
    · split
      · exact fun hs ↦ absurd hs Bool.false_ne_true
      · exact id

/-- An append that settles a row. -/
theorem lawful_append_settled_iff (h : b.Lawful) {input : EventStore.AppendInput}
    {state : SideEffectState} {digest : Option String}
    (hp : input.payload = .sideEffectSettled sideEffectId state digest) :
    Books.Lawful { b with store := (append r input draw b.store).2 } ↔
      (state.allows = true → (append r input draw b.store).1.isOk = true →
        b.Unaffected sideEffectId) := by
  cases ha : (append r input draw b.store).1 with
  | error err =>
    have hlawful := lawful_of_append_error h ha
    exact iff_of_true hlawful fun _ hok ↦ absurd hok Bool.false_ne_true
  | ok e =>
    obtain ⟨digest', hrows⟩ := EventStore.ledger_of_settled (Prod.ext ha rfl) hp
    rw [lawful_settle_iff h hrows]
    have hok : (Except.ok e : Except StoreError HarnessEvent).isOk = true := rfl
    exact imp_congr_right fun _ ↦ ⟨fun hu _ ↦ hu, fun hu ↦ hu hok⟩

theorem lawful_recordSettled_iff (h : b.Lawful) {ok : Bool} :
    Books.Lawful { b with
        store := (recordSettled r ctx sideEffectId taskId ok draw b.store).2 } ↔
      (ok = false → (recordSettled r ctx sideEffectId taskId ok draw b.store).1.isOk = true →
        b.Unaffected sideEffectId) := by
  refine (lawful_append_settled_iff h rfl).trans (imp_congr_left ?_)
  cases ok <;> decide

theorem lawful_recoverInterrupted (h : b.Lawful) :
    Books.Lawful { b with store := b.store.recoverInterrupted.2 } := by
  refine lawful_of_map h (fun x ↦ ?_) (fun x ↦ ?_) (fun x ↦ ?_) (EventStore.ledger_of_recover b.store)
  · split <;> rfl
  · split <;> rfl
  · split
    · exact fun hs ↦ absurd hs Bool.false_ne_true
    · exact id

theorem lawful_cancel_iff (h : b.Lawful) {input : CancelInput} :
    Books.Lawful { b with store := (cancelBackground r input draw b.store).2 } ↔
      ∀ record, cancelRecord b.store input = .ok (some record) →
        (cancelBackground r input draw b.store).1 = .ok .cancelled →
          b.Unaffected record.sideEffectId := by
  unfold cancelBackground
  cases hrec : cancelRecord b.store input with
  | error err => exact iff_of_true h fun record hr ↦ absurd hr (by simp)
  | ok found =>
    cases found with
    | none => exact iff_of_true h fun record hr ↦ absurd hr (by simp)
    | some record =>
      simp only [Except.ok.injEq, Option.some.injEq, forall_eq']
      by_cases hstate : record.state = some .inFlight
      · have hsettled := @lawful_append_settled_iff r b _ draw h
          (input.event (b.store.getThread input.threadId) record.sideEffectId) _ _ rfl
        rw [if_pos hstate]
        cases ha : append r (input.event (b.store.getThread input.threadId) record.sideEffectId)
            draw b.store with
        | mk answer s =>
          rw [ha] at hsettled
          cases answer with
          | error err =>
            have hlawful := hsettled.mpr fun _ hok ↦ absurd hok Bool.false_ne_true
            exact iff_of_true hlawful fun hc ↦ by cases hc
          | ok e =>
            have hfailed : SideEffectState.knownFailed.allows = true := rfl
            have hok : (Except.ok e : Except StoreError HarnessEvent).isOk = true := rfl
            refine hsettled.trans ⟨fun hall _ ↦ hall hfailed hok, fun hall _ _ ↦ hall rfl⟩
      · rw [if_neg hstate]
        refine iff_of_true h fun hc ↦ ?_
        cases hc

/-- With one more row resolved, the tasks of this row are not at stake. -/
theorem atStake_resolved_iff :
    Books.AtStake { b with resolved := sideEffectId :: b.resolved } l ↔
      b.AtStake l ∧ l.sideEffectId ≠ some sideEffectId := by
  simp only [Books.AtStake, Books.Excused, List.mem_cons]
  cases l.sideEffectId with
  | none => simp
  | some id =>
    simp only [Option.mem_def, Option.some.injEq, exists_eq_left', ne_eq]
    tauto

theorem lawful_resolve_iff (h : b.Lawful) {input : ResolveInput} :
    (b.resolve r input draw).Lawful ↔
      ((resolveSideEffect r input draw b.store).1 = .ok .knownFailed →
        ∀ l, b.AtStake l → l.sideEffectId ≠ some input.sideEffectId →
          ∀ row ∈ b.store.latestAttempt l.key, row.id ≠ input.sideEffectId) := by
  cases hres : resolveSideEffect r input draw b.store with
  | mk answer s =>
    cases answer with
    | error err =>
      have hsame : s = b.store := resolveSideEffect_error hres
      have hbooks : b.resolve r input draw = { b with store := s } := by
        rw [Books.resolve, hres]
      rw [hbooks, hsame]
      exact iff_of_true h fun hc ↦ by cases hc
    | ok state =>
      obtain ⟨hstate, thread, e, ha⟩ := resolveSideEffect_ok hres
      obtain ⟨digest', hrows⟩ := EventStore.ledger_of_settled ha rfl
      rw [← hstate] at hrows
      cases hf : input.finding with
      | completed =>
        rw [hf] at hstate
        have hbooks : b.resolve r input draw = { b with store := s } := by
          rw [Books.resolve, hres, hstate]
          rfl
        rw [hstate] at hrows
        have hlawful := (lawful_settle_iff h hrows).mpr fun hs ↦ absurd hs Bool.false_ne_true
        rw [hbooks, hstate]
        exact iff_of_true hlawful fun hc ↦ by cases hc
      | failed =>
        rw [hf] at hstate
        have hbooks : b.resolve r input draw =
            { b with store := s, resolved := input.sideEffectId :: b.resolved } := by
          rw [Books.resolve, hres, hstate]
          rfl
        rw [hstate] at hrows
        have hmore : Books.Lawful { b with resolved := input.sideEffectId :: b.resolved } := by
          intro l hl ha
          by_contra hex
          exact (atStake_resolved_iff.mp ⟨hl, hex⟩).1.2 (h l hl ha)
        have hsettle := lawful_settle_iff hmore hrows
        rw [hbooks, hstate]
        refine hsettle.trans ?_
        have hfailed : SideEffectState.knownFailed.allows = true := rfl
        refine ⟨fun hu _ l hl hne ↦ hu hfailed l (atStake_resolved_iff.mpr ⟨hl, hne⟩),
          fun hu _ l hl ↦ ?_⟩
        obtain ⟨hl, hne⟩ := atStake_resolved_iff.mp hl
        exact hu rfl l hl hne

variable {σ : System}

theorem books_calls (f : Manager → Heap × Manager) : (σ.calls f).books = σ.books := by
  unfold System.calls
  split
  · split <;> rfl
  · rfl

theorem books_answered (heap : Heap) (m : Manager)
    (answer : Except StoreError HarnessEvent × EventStore) :
    (σ.answered heap m answer).books = { σ.books with store := answer.2 } := by
  obtain ⟨answer, s⟩ := answer
  cases answer <;> rfl

/-- What the runner tells of an exit only excuses. -/
theorem lawful_callback (h : σ.books.Lawful) {task : ℕ} {answers : Answers} {callback : Callback} :
    (σ.callback task answers callback).books.Lawful := by
  unfold System.callback
  split
  · split
    · change Books.Lawful (match callback with
        | .exit ⟨false, _, _⟩ => { σ.books with exited := task :: σ.books.exited }
        | _ => σ.books)
      split
      · intro l hl ha
        rcases h l hl ha with hex | hres
        · exact .inl (List.mem_cons_of_mem _ hex)
        · exact .inr hres
      · exact h
    · exact h
  · exact h

/-- A task is started lawfully if it is excused already, or barred. -/
theorem lawful_runnerStart_iff (h : b.Lawful) :
    Books.Lawful { b with launches := b.launches ++ [l] } ↔ b.Excused l ∨ b.Barred l.key := by
  rw [barred_iff, or_comm, ← imp_iff_not_or]
  constructor
  · exact fun hall ha ↦ hall l (List.mem_append_right _ (List.mem_singleton_self _)) ha
  · intro hl l' hl' ha
    rcases List.mem_append.mp hl' with hl' | hl'
    · exact h l' hl' ha
    · rw [List.mem_singleton.mp hl'] at ha ⊢
      exact hl ha

theorem lawful_work_iff (h : σ.books.Lawful) {m : Manager} {answers : Answers} :
    (σ.work r m answers draw).books.Lawful ↔
      (m.work σ.heap answers).1.Safe r σ.books m draw := by
  unfold System.work
  obtain ⟨request, heap, m'⟩ := m.work σ.heap answers
  cases request with
  | none => exact iff_of_true h trivial
  | runnerStart task taskId => exact lawful_runnerStart_iff h
  | recordStart taskId category sideEffectId =>
    simp only [books_answered]
    exact lawful_recordStart_iff h
  | recordStarted sideEffectId =>
    simp only [books_answered]
    exact iff_of_true (lawful_recordStarted h) trivial
  | recordSettled sideEffectId taskId ok =>
    simp only [books_answered]
    exact lawful_recordSettled_iff h

/-- **One step.** From books that keep the law, a step keeps it exactly if it is safe. -/
theorem lawful_step_iff (h : σ.books.Lawful) (step : Step) :
    (σ.step r step).books.Lawful ↔ step.Safe r σ := by
  cases step with
  | boot ctx limit hardStopBytes =>
    refine iff_of_true ?_ trivial
    rw [System.step]
    split <;> exact h
  | die => exact iff_of_true h trivial
  | start input answers =>
    refine iff_of_true ?_ trivial
    rw [System.step, books_calls]
    exact h
  | stop id =>
    refine iff_of_true ?_ trivial
    rw [System.step, books_calls]
    exact h
  | provideInput id =>
    refine iff_of_true ?_ trivial
    rw [System.step, books_calls]
    exact h
  | awaitTask id =>
    refine iff_of_true ?_ trivial
    rw [System.step, books_calls]
    exact h
  | checkWatchdogs now answers =>
    refine iff_of_true ?_ trivial
    rw [System.step, books_calls]
    exact h
  | callback task answers callback => exact iff_of_true (lawful_callback h) trivial
  | work answers draw =>
    rw [System.step, Step.Safe]
    cases σ.manager with
    | none => exact iff_of_true h fun m hm ↦ by cases hm
    | some m => simpa using lawful_work_iff h
  | runnerReturns =>
    refine iff_of_true ?_ trivial
    rw [System.step]
    split <;> exact h
  | runnerThrows => exact iff_of_true h trivial
  | recoverInterrupted => exact iff_of_true (lawful_recoverInterrupted h) trivial
  | cancel input draw => exact lawful_cancel_iff h
  | resolve input draw => exact lawful_resolve_iff h

/-! ## Runs -/

/-- **The recovery guard.** Over every run from every store, the law holds in all states exactly if
every step of the run is safe. -/
theorem lawful_run_iff (r : Redactor) (s : EventStore) (steps : List Step) :
    (∀ past, past <+: steps → ((System.initial s).run r past).books.Lawful) ↔
      AllSafe r (.initial s) steps := by
  have hinitial : (System.initial s).books.Lawful := fun l hl ↦ absurd hl List.not_mem_nil
  generalize System.initial s = σ at hinitial
  induction steps generalizing σ with
  | nil =>
    refine iff_of_true ?_ trivial
    intro past hpast
    rw [List.prefix_nil.mp hpast]
    exact hinitial
  | cons step steps ih =>
    rw [AllSafe, ← lawful_step_iff hinitial]
    constructor
    · intro h
      have hstep : (σ.step r step).books.Lawful := h [step] ⟨steps, rfl⟩
      refine ⟨hstep, (ih _ hstep).mp fun past hpast ↦ ?_⟩
      exact h (step :: past) ((List.prefix_cons_inj step).mpr hpast)
    · rintro ⟨hstep, hrest⟩ past hpast
      rcases List.prefix_cons_iff.mp hpast with rfl | ⟨past', rfl, hpast'⟩
      · exact hinitial
      · exact (ih _ hstep).mpr hrest past' hpast'

end Steps

/-! ### A task that runs and may run again -/

def backgroundSink : SinkContext where
  threadId := "thr_background0"
  turnId := "trn_000001"
  actor := Cli.cliUser
  correlationId := "cor_000001"
  permissionProfile := .ask

/-- A store with the thread of background work. -/
def backgroundStore : EventStore :=
  (append .none { backgroundSink.input (.threadCreated "/repo" (some "/repo") none) with
    turnId := none } { id := "evt_000001", now := 1 } .empty).2

/-- `background start`, up to the call of the runner. -/
def startsTask : List Step :=
  let answers (id : String) : Answers := ⟨1, fun _ ↦ id⟩
  let draw : Draw := { id := "evt_000002", now := 1 }
  [.boot backgroundSink foregroundConcurrency outputHardStopBytes,
    .start ⟨.localShell, some .background, none, false⟩ (answers "bgt_1"),
    .work (answers "sfx_000001") draw, .work (answers "") draw, .work (answers "") draw]

/-- The work is started, and the ledger says that nothing was. -/
theorem not_lawful_startsTask :
    ¬ ∀ past, past <+: startsTask →
      ((System.initial backgroundStore).run .none past).books.Lawful := by
  intro h
  have hlaunched : ((System.initial backgroundStore).run .none startsTask).books.launches =
      [⟨0, "bgt_1", some "sfx_000001"⟩] := by decide +kernel
  have hallowed : (((System.initial backgroundStore).run .none startsTask).books.store.mayExecute
      (backgroundIdempotencyKey "bgt_1")).allowed = true := by decide +kernel
  have hexited : ((System.initial backgroundStore).run .none startsTask).books.exited = [] := by
    decide +kernel
  have hresolved : ((System.initial backgroundStore).run .none startsTask).books.resolved = [] := by
    decide +kernel
  have hmem : (⟨0, "bgt_1", some "sfx_000001"⟩ : Launch) ∈
      ((System.initial backgroundStore).run .none startsTask).books.launches := by
    rw [hlaunched]
    exact List.mem_singleton_self _
  rcases h startsTask (List.prefix_refl _) _ hmem hallowed with hex | ⟨id, -, hres⟩
  · exact absurd (hexited ▸ hex) List.not_mem_nil
  · exact absurd (hresolved ▸ hres) List.not_mem_nil

end QwenHarness.Background
