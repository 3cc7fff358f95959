import QwenHarness.Background.SessionInvariants
import QwenHarness.Runtime.Drive

/-!
# A runner that refuses

`runner.start` can throw, when it is called for a task that is started and when it is called for the
next task of the queue. The task was set running before. Unless it ended while the runner was
called, it stays running without a control, and its slot is gone.

All else is in order whenever the manager is open: what has ended is settled with all that belongs
to it, and a task is queued only while all slots are taken.
-/

namespace QwenHarness.Background

variable {ids : IdSource} {σ : Session} {under : List Frame} {t : ℕ} {task : TaskRecord}

/-- All is in order after the runner has refused to start the task. -/
structure Session.InOrder (σ : Session) (t : ℕ) : Prop where
  /-- The task has ended, or there is a control by which it can be ended. -/
  task : ∀ task, σ.heap[t]? = some task →
    isTerminalStatus task.status = true ∨ task.hasControl = true
  slot : ∀ task, σ.heap[t]? = some task → task.holdsSlot = false
  /-- No task is queued while a slot is free. -/
  queue : ∀ task ∈ σ.heap, task.status = .queued →
    σ.manager.limit ≤ σ.manager.foregroundRunning σ.heap
  /-- What has ended is completely settled. -/
  settled : ∀ (u : ℕ) (task : TaskRecord), σ.heap[u]? = some task →
    isTerminalStatus task.status = true →
    (∃ n ∈ σ.manager.notifications, n.subjectId = task.id ∧ n.isCompletion = true) ∧
      .completes u ∈ σ.log ∧ task.waiters = 0

theorem isOpen_dropWhile (m : Manager) : m.throws.isOpen = true := by
  rw [Manager.isOpen, Manager.throws]
  induction m.stack with
  | nil => rfl
  | cons frame stack ih =>
    rw [List.dropWhile_cons]
    split_ifs with hframe
    · exact ih
    · simpa using hframe

/-- Between its moves an open manager keeps all in order, but for what it is to start. -/
theorem Session.Sound.inOrder (h : σ.Sound ids .idle under) (ht : σ.heap[t]? = some task)
    (hterminal : isTerminalStatus task.status = true) : σ.InOrder t := by
  have hsame : ∀ task', σ.heap[t]? = some task' → isTerminalStatus task'.status = true := by
    intro task' ht'
    rw [ht] at ht'
    rwa [← Option.some.inj ht']
  refine ⟨fun task' ht' ↦ .inl (hsame task' ht'),
    fun task' ht' ↦ holdsSlot_of_terminal (hsame task' ht'), fun task' ht' hqueued ↦ ?_,
    fun u task' hu hend ↦ ⟨h.told.noted u task' hu hend, ?_, ?_⟩⟩
  · obtain ⟨u, hu⟩ := List.mem_iff_getElem?.mp ht'
    rw [h.keyed.foregroundRunning_eq]
    rcases h.admitting.waits u task' hu hqueued with hpending | hin
    · cases hpending
    · exact h.admitting.slots u task' hu hqueued hin
  · refine (h.told.recorded u task' hu hend).resolve_left ?_
    rintro ⟨ok, ⟨⟩⟩
  · refine (h.told.waiters u task' hu hend).resolve_left ?_
    rintro ⟨⟩

/-- **A runner that refuses.** In every run, where `runner.start` throws, all is in order afterwards
just if the task has ended by then. -/
theorem inOrder_iff (ids : IdSource) (ctx : SinkContext) (limit hardStopBytes drawn : ℕ)
    (moves : List SessionMove) (t : ℕ) (under : List Frame)
    (h : ((Session.new ctx limit hardStopBytes drawn).run ids moves).manager.stack =
      .starting t :: under) :
    (((Session.new ctx limit hardStopBytes drawn).run ids moves).step ids .runnerThrows).InOrder t ↔
      ∃ task, ((Session.new ctx limit hardStopBytes drawn).run ids moves).heap[t]? = some task ∧
        isTerminalStatus task.status = true := by
  obtain ⟨now, calls, hsound⟩ := (sound_new ids ctx limit hardStopBytes drawn).run moves
  generalize (Session.new ctx limit hardStopBytes drawn).run ids moves = σ at h hsound ⊢
  have hstarting : t ∈ startings calls := by
    have hstack := hsound.shape.stack
    rw [h] at hstack
    cases now with
    | idle =>
      rw [← show Frame.starting t :: under = calls from hstack]
      exact List.mem_cons_self
    | _ => cases hstack
  have hstep : σ.step ids .runnerThrows =
      ⟨σ.heap, σ.manager.pop.throws, σ.drawn + 1, σ.log⟩ := by
    have hallows : σ.allows .runnerThrows = true := by rw [Session.allows, h]
    rw [Session.step, if_pos hallows]
    refine congrArg₂ (Session.mk σ.heap · (σ.drawn + 1) ·) ?_ (List.append_nil _)
    change σ.manager.runnerThrows = _
    rw [Manager.runnerThrows, h]
  obtain ⟨now', under', hsound'⟩ := hsound.step .runnerThrows
  rw [hstep] at hsound' ⊢
  obtain rfl := hsound'.shape.isOpen (isOpen_dropWhile _)
  constructor
  · intro horder
    refine ⟨_, List.getElem?_eq_getElem (hsound.launching.known t hstarting), ?_⟩
    have htask := List.getElem?_eq_getElem (hsound.launching.known t hstarting)
    refine (horder.task _ htask).resolve_right ?_
    rw [(hsound.launching.starting t _ hstarting htask).2]
    exact Bool.false_ne_true
  · rintro ⟨task, htask, hterminal⟩
    exact hsound'.inOrder htask hterminal

section Runs

def sessionSink : SinkContext := ⟨"thr_1", "turn_1", ⟨.user, "user", none⟩, "cor_1", .ask⟩

/-- A task of the foreground is started, up to where the runner is called. -/
def startedTask : List SessionMove :=
  .start ⟨.localShell, none, none, false⟩ 0 :: List.replicate 3 (.work ⟨0, fun _ ↦ "ntf_1"⟩)

/-- The run ends while the runner is still called. -/
def endedTask : List SessionMove :=
  startedTask ++ .callback 0 ⟨0, fun _ ↦ "ntf_1"⟩ (.exit ⟨true, some 0, none⟩) ::
    List.replicate 5 (.work ⟨0, fun _ ↦ "ntf_1"⟩)

theorem inOrder_endedTask :
    (((Session.new sessionSink 4 1000 0).run TurnEngine.tallyIds endedTask).step
      TurnEngine.tallyIds .runnerThrows).InOrder 0 :=
  (inOrder_iff TurnEngine.tallyIds sessionSink 4 1000 0 endedTask 0 [] (by decide +kernel)).mpr
    ((Option.any_eq_true (fun task : TaskRecord ↦ isTerminalStatus task.status) _).mp
      (by decide +kernel))

/-- A task that the runner refuses to start keeps its slot, with no control to end it by. -/
theorem not_inOrder_startedTask :
    ¬ (((Session.new sessionSink 4 1000 0).run TurnEngine.tallyIds startedTask).step
      TurnEngine.tallyIds .runnerThrows).InOrder 0 := by
  intro h
  obtain ⟨task, htask, hholds⟩ : ∃ task,
      (((Session.new sessionSink 4 1000 0).run TurnEngine.tallyIds startedTask).step
        TurnEngine.tallyIds .runnerThrows).heap[0]? = some task ∧ task.holdsSlot = true :=
    (Option.any_eq_true TaskRecord.holdsSlot _).mp (by decide +kernel)
  exact absurd (h.slot task htask) (by rw [hholds]; decide)

end Runs

end QwenHarness.Background
