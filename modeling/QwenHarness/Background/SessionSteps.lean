import QwenHarness.Background.Session

/-!
# What a move of a session can do

The stack of a manager is what it is in the middle of, above the calls of the runner it is inside
of. While it is in such a call, all that waits below is to settle a task or to admit the next one.
`Happens` lists what a move can do to the tasks, the queue and the log, by what the manager was in
the middle of before and is afterwards.
-/

namespace QwenHarness.Background

/-! ## Stages -/

theorem stage_eq_waiting {status : TaskStatus} : status.stage = .waiting ↔ status = .queued := by
  cases status <;> decide

theorem stage_eq_settled {status : TaskStatus} :
    status.stage = .settled ↔ isTerminalStatus status = true := by
  cases status <;> decide

/-- The task is as far as it was, and if it is settled the owner sees what was there before. -/
structure Steady (task task' : TaskRecord) : Prop where
  id : task'.id = task.id
  placement : task'.placement = task.placement
  hasControl : task'.hasControl = task.hasControl
  stage : task'.status.stage = task.status.stage
  view : task.status.stage = .settled → task'.view = task.view
  waiters : task.status.stage = .settled → task'.waiters ≤ task.waiters

theorem Steady.refl (task : TaskRecord) : Steady task task :=
  ⟨rfl, rfl, rfl, rfl, fun _ ↦ rfl, fun _ ↦ le_rfl⟩

/-- A task that has not ended. -/
theorem Steady.of_active {task task' : TaskRecord} (hactive : task.status.stage = .active)
    (hid : task'.id = task.id) (hplacement : task'.placement = task.placement)
    (hcontrol : task'.hasControl = task.hasControl) (hstage : task'.status.stage = .active) :
    Steady task task' := by
  refine ⟨hid, hplacement, hcontrol, hstage.trans hactive.symm, fun hsettled ↦ ?_,
    fun hsettled ↦ ?_⟩ <;> cases hactive.symm.trans hsettled

theorem Steady.trans {task task' task'' : TaskRecord} (h : Steady task task')
    (h' : Steady task' task'') : Steady task task'' where
  id := h'.id.trans h.id
  placement := h'.placement.trans h.placement
  hasControl := h'.hasControl.trans h.hasControl
  stage := h'.stage.trans h.stage
  view hs := (h'.view (h.stage.trans hs)).trans (h.view hs)
  waiters hs := (h'.waiters (h.stage.trans hs)).trans (h.waiters hs)

/-- Each task is steady. -/
abbrev AllSteady (heap heap' : Heap) : Prop := List.Forall₂ Steady heap heap'

variable {heap heap' : Heap} {t : ℕ} {task : TaskRecord}

theorem AllSteady.refl (heap : Heap) : AllSteady heap heap :=
  List.forall₂_same.mpr fun task _ ↦ .refl task

theorem AllSteady.trans {heap'' : Heap} (h : AllSteady heap heap') (h' : AllSteady heap' heap'') :
    AllSteady heap heap'' := by
  induction h generalizing heap'' with
  | nil => exact h'
  | cons h _ ih =>
    rcases h' with - | ⟨h', htail⟩
    exact .cons (h.trans h') (ih htail)

theorem allSteady_set {task' : TaskRecord} (ht : heap[t]? = some task) (h : Steady task task') :
    AllSteady heap (heap.set t task') := by
  induction heap generalizing t with
  | nil => cases ht
  | cons first rest ih =>
    cases t with
    | zero =>
      cases ht
      exact .cons h (AllSteady.refl rest)
    | succ t => exact .cons (.refl first) (ih ht)

theorem modify_eq_set {f : TaskRecord → TaskRecord} (ht : heap[t]? = some task) :
    heap.modify t f = heap.set t (f task) := by
  refine List.ext_getElem? fun i ↦ ?_
  rw [List.getElem?_modify, List.getElem?_set]
  by_cases hi : t = i
  · subst hi
    simp only [ht, if_true, (List.getElem?_eq_some_iff.mp ht).1, Option.map_eq_map, Option.map_some]
  · simp only [hi, if_false, Option.map_eq_map, Option.map_id']

theorem modify_of_none {f : TaskRecord → TaskRecord} (ht : heap[t]? = none) :
    heap.modify t f = heap := by
  refine List.ext_getElem? fun i ↦ ?_
  rw [List.getElem?_modify]
  by_cases hi : t = i
  · subst hi
    rw [ht]
    rfl
  · simp only [hi, if_false, Option.map_eq_map, Option.map_id']

theorem allSteady_modify {f : TaskRecord → TaskRecord}
    (h : ∀ task, heap[t]? = some task → Steady task (f task)) :
    AllSteady heap (heap.modify t f) := by
  cases ht : heap[t]? with
  | none =>
    rw [modify_of_none ht]
    exact AllSteady.refl heap
  | some task =>
    rw [modify_eq_set ht]
    exact allSteady_set ht (h task ht)

theorem AllSteady.get? (h : AllSteady heap heap') {task' : TaskRecord}
    (ht : heap'[t]? = some task') : ∃ task, heap[t]? = some task ∧ Steady task task' := by
  induction h generalizing t with
  | nil => cases ht
  | @cons first first' rest rest' hfirst hrest ih =>
    cases t with
    | zero =>
      cases ht
      exact ⟨first, rfl, hfirst⟩
    | succ t => exact ih ht

theorem AllSteady.ids (h : AllSteady heap heap') :
    heap'.map TaskRecord.id = heap.map TaskRecord.id := by
  induction h with
  | nil => rfl
  | cons h _ ih => rw [List.map_cons, List.map_cons, h.id, ih]

theorem AllSteady.running (h : AllSteady heap heap') : running heap' = running heap := by
  rw [Background.running, Background.running]
  induction h with
  | nil => rfl
  | cons h _ ih => rw [List.countP_cons, List.countP_cons, ih, h.placement, h.stage]

/-! ## What the manager is in the middle of -/

/-- What the manager is in the middle of, above the calls of the runner. -/
inductive Now where
  | idle
  | recording (t : ℕ)
  | placing (t : ℕ)
  | launching (t : ℕ)
  /-- Launching the task that was next in the queue. -/
  | admitting (t : ℕ)
  | settling (t : ℕ) (status : TaskStatus) (exit : RunnerExit)
  | completing (t : ℕ) (ok : Bool)
  | reporting (t : ℕ) (ok : Bool)
  | concluding (t : ℕ)
  | next

def Now.frames : Now → List Frame
  | .idle => []
  | .recording t => [.recordStart t, .place t]
  | .placing t => [.place t]
  | .launching t => [.launch t]
  | .admitting t => [.launch t, .admitNext]
  | .settling t status exit => [.settle t status exit]
  | .completing t ok => [.recordStarted t, .recordSettled t ok, .conclude t]
  | .reporting t ok => [.recordSettled t ok, .conclude t]
  | .concluding t => [.conclude t]
  | .next => [.admitNext]

/-- The task was made by the call the manager is in, and was not put anywhere yet. -/
def Now.Enters (t : ℕ) : Now → Prop
  | .recording u | .placing u | .launching u => u = t
  | _ => False

/-- Calls of the runner, one inside the other, and what waits for them. -/
inductive Nested : List Frame → Prop
  | nil : Nested []
  | starting (t : ℕ) {under : List Frame} (h : Nested under) : Nested (.starting t :: under)
  | admitting (t : ℕ) {under : List Frame} (h : Nested under) :
    Nested (.starting t :: .admitNext :: under)
  | steering (t : ℕ) {under : List Frame} (h : Nested under) : Nested (.steering t :: under)
  | ending (t : ℕ) {status : TaskStatus} {exit : RunnerExit} {under : List Frame}
      (hstatus : isTerminalStatus status = true) (h : Nested under) :
    Nested (.steering t :: .settle t status exit :: under)

theorem Nested.dropWhile {under : List Frame} (h : Nested under) :
    under.dropWhile (!·.isRunner) = under := by
  cases h <;> rfl

/-- The stack is what the manager is in the middle of, above calls of the runner. -/
structure Session.Shape (σ : Session) (now : Now) (under : List Frame) : Prop where
  stack : σ.manager.stack = now.frames ++ under
  nested : Nested under
  settling : ∀ t status exit, now = .settling t status exit → isTerminalStatus status = true
  entering : ∀ t, now.Enters t → t + 1 = σ.heap.length
  admitting : ∀ t, now = .admitting t → t < σ.heap.length
  known : ∀ t, .launches t ∈ σ.log → t < σ.heap.length
  launched : ∀ (t : ℕ) (task : TaskRecord), .launches t ∈ σ.log → σ.heap[t]? = some task →
    task.status ≠ .queued

theorem Session.Shape.isOpen {σ : Session} {now : Now} {under : List Frame}
    (h : σ.Shape now under) (hopen : σ.manager.isOpen = true) : now = .idle := by
  rw [Manager.isOpen, h.stack] at hopen
  cases now with
  | idle => rfl
  | _ => cases hopen

/-! ## What a move can do -/

/-- The manager goes on from one thing to another. -/
inductive Turn (σ σ' : Session) : Now → List Frame → Now → List Frame → Prop
  | stay {now : Now} {under : List Frame} : Turn σ σ' now under now under
  | steer (t : ℕ) {under : List Frame} : Turn σ σ' .idle under .idle (.steering t :: under)
  | exits (t : ℕ) {status : TaskStatus} {exit : RunnerExit} {under : List Frame}
      (hstatus : isTerminalStatus status = true) :
    Turn σ σ' .idle under (.settling t status exit) under
  | recorded (t : ℕ) {under : List Frame} : Turn σ σ' (.recording t) under (.placing t) under
  | places (t : ℕ) {under : List Frame}
      (h : ∀ task, σ.heap[t]? = some task → task.placement = .background ∨
        σ.manager.foregroundRunning σ.heap < σ.manager.limit) :
    Turn σ σ' (.placing t) under (.launching t) under
  | settled (t : ℕ) {status : TaskStatus} {exit : RunnerExit} {under : List Frame}
      (h : ∀ task, σ.heap[t]? = some task → isTerminalStatus task.status = true) :
    Turn σ σ' (.settling t status exit) under .idle under
  | reported (t : ℕ) {ok : Bool} {under : List Frame} :
    Turn σ σ' (.reporting t ok) under (.concluding t) under
  | frees (t : ℕ) {under : List Frame}
      (hwaiters : ∀ task, σ'.heap[t]? = some task → task.waiters = 0) :
    Turn σ σ' (.concluding t) under .next under
  | concluded (t : ℕ) {under : List Frame}
      (hwaiters : ∀ task, σ'.heap[t]? = some task → task.waiters = 0)
      (h : ∀ task, σ.heap[t]? = some task → task.placement ≠ .foreground) :
    Turn σ σ' (.concluding t) under .idle under
  | rests {under : List Frame} (h : σ.manager.queue = [] ∨
      σ.manager.limit ≤ σ.manager.foregroundRunning σ.heap) : Turn σ σ' .next under .idle under
  | steered (t : ℕ) {under : List Frame} : Turn σ σ' .idle (.steering t :: under) .idle under
  | ended (t : ℕ) {status : TaskStatus} {exit : RunnerExit} {under : List Frame}
      (hstatus : isTerminalStatus status = true) :
    Turn σ σ' .idle (.steering t :: .settle t status exit :: under) (.settling t status exit) under
  | threw (t : ℕ) {status : TaskStatus} {exit : RunnerExit} {under : List Frame} :
    Turn σ σ' .idle (.steering t :: .settle t status exit :: under) .idle under
  /-- `runner.start` throws, and whoever called for it is left. -/
  | refused (t : ℕ) {under : List Frame} : Turn σ σ' .idle (.starting t :: under) .idle under
  | dropped (t : ℕ) {under : List Frame} :
    Turn σ σ' .idle (.starting t :: .admitNext :: under) .idle under

/-- The notification says that a task is settled. -/
def Notification.isCompletion (n : Notification) : Bool :=
  decide (n.kind = .backgroundCompletion ∨ n.kind = .taskFailure)

/-- What a move does to the tasks, the queue and the log. -/
inductive Happens (ids : IdSource) (σ σ' : Session) :
    Now → List Frame → Now → List Frame → Prop
  /-- Nothing but what the manager is in the middle of. -/
  | turns {now now' : Now} {under under' : List Frame} {notes : List Notification}
      (hheap : AllSteady σ.heap σ'.heap) (htasks : σ'.manager.tasks = σ.manager.tasks)
      (hqueue : σ'.manager.queue = σ.manager.queue)
      (hnotes : σ'.manager.notifications = σ.manager.notifications ++ notes)
      (hquiet : ∀ n ∈ notes, n.isCompletion = false) (hlog : σ'.log = σ.log)
      (hturn : Turn σ σ' now under now' under') : Happens ids σ σ' now under now' under'
  | enters {under : List Frame} {task : TaskRecord} (hheap : σ'.heap = σ.heap ++ [task])
      (hstatus : task.status = .queued) (hcontrol : task.hasControl = false)
      (hid : task.id = ids.next σ.drawn "bgt") (hdrawn : σ.drawn < σ'.drawn)
      (htasks : σ'.manager.tasks = assign task.id σ.heap.length σ.manager.tasks)
      (hqueue : σ'.manager.queue = σ.manager.queue)
      (hnotes : σ'.manager.notifications = σ.manager.notifications) (hlog : σ'.log = σ.log) :
    Happens ids σ σ' .idle under (.recording σ.heap.length) under
  | queues {under : List Frame} {t : ℕ} {task : TaskRecord} (ht : σ.heap[t]? = some task)
      (hplacement : task.placement = .foreground)
      (hfull : σ.manager.limit ≤ σ.manager.foregroundRunning σ.heap) (hheap : σ'.heap = σ.heap)
      (htasks : σ'.manager.tasks = σ.manager.tasks)
      (hqueue : σ'.manager.queue = σ.manager.queue ++ [task.id])
      (hnotes : σ'.manager.notifications = σ.manager.notifications)
      (hlog : σ'.log = σ.log ++ [.queues t]) : Happens ids σ σ' (.placing t) under .idle under
  | launches {now : Now} {under under' : List Frame} {t : ℕ} {task task' : TaskRecord}
      (hnow : now = .launching t ∧ under' = .starting t :: under ∨
        now = .admitting t ∧ under' = .starting t :: .admitNext :: under)
      (ht : σ.heap[t]? = some task) (hheap : σ'.heap = σ.heap.set t task')
      (hid : task'.id = task.id) (hplacement : task'.placement = task.placement)
      (hcontrol : task'.hasControl = task.hasControl) (hstatus : task'.status = .running)
      (htasks : σ'.manager.tasks = σ.manager.tasks) (hqueue : σ'.manager.queue = σ.manager.queue)
      (hnotes : σ'.manager.notifications = σ.manager.notifications)
      (hlog : σ'.log = σ.log ++ [.launches t]) : Happens ids σ σ' now under .idle under'
  | ends {now' : Now} {under under' : List Frame} {t : ℕ} {task : TaskRecord}
      {status : TaskStatus} {exit : RunnerExit} {notes : List Notification}
      (ht : σ.heap[t]? = some task) (hstage : isTerminalStatus task.status = false)
      (hstatus : isTerminalStatus status = true)
      (hnow : task.hasControl = true ∧ now' = .idle ∧
          under' = .steering t :: .settle t status exit :: under ∨
        task.hasControl = false ∧ now' = .settling t status exit ∧ under' = under)
      (hheap : AllSteady σ.heap σ'.heap) (htasks : σ'.manager.tasks = σ.manager.tasks)
      (hqueue : σ'.manager.queue = σ.manager.queue)
      (hnotes : σ'.manager.notifications = σ.manager.notifications ++ notes)
      (hquiet : ∀ n ∈ notes, n.isCompletion = false)
      (hlog : σ'.log = σ.log ++ .ends t :: if task.hasControl then [.cancels t] else []) :
    Happens ids σ σ' .idle under now' under'
  | settles {under : List Frame} {t : ℕ} {status : TaskStatus} {exit : RunnerExit} {ok : Bool}
      {task task' : TaskRecord} {note : Notification} (ht : σ.heap[t]? = some task)
      (hstage : isTerminalStatus task.status = false) (hheap : σ'.heap = σ.heap.set t task')
      (hid : task'.id = task.id) (hplacement : task'.placement = task.placement)
      (hcontrol : task'.hasControl = false) (hstatus : task'.status = status)
      (htasks : σ'.manager.tasks = σ.manager.tasks) (hqueue : σ'.manager.queue = σ.manager.queue)
      (hnotes : σ'.manager.notifications = σ.manager.notifications ++ [note])
      (hsubject : note.subjectId = task.id) (hkind : note.isCompletion = true)
      (hlog : σ'.log = σ.log) :
    Happens ids σ σ' (.settling t status exit) under (.completing t ok) under
  | completes {now' : Now} {under : List Frame} {t : ℕ} {ok : Bool}
      (hnow : now' = .reporting t ok ∨ now' = .concluding t) (hheap : σ'.heap = σ.heap)
      (htasks : σ'.manager.tasks = σ.manager.tasks) (hqueue : σ'.manager.queue = σ.manager.queue)
      (hnotes : σ'.manager.notifications = σ.manager.notifications)
      (hlog : σ'.log = σ.log ++ [.completes t]) :
    Happens ids σ σ' (.completing t ok) under now' under
  /-- The next in the queue is gone already. -/
  | skips {under : List Frame} {id : String} (hqueue : σ.manager.queue = id :: σ'.manager.queue)
      (hgone : ∀ (t : ℕ) (task : TaskRecord), σ.manager.tasks.lookup id = some t →
        σ.heap[t]? = some task → task.status ≠ .queued)
      (hheap : σ'.heap = σ.heap) (htasks : σ'.manager.tasks = σ.manager.tasks)
      (hnotes : σ'.manager.notifications = σ.manager.notifications) (hlog : σ'.log = σ.log) :
    Happens ids σ σ' .next under .next under
  | admits {under : List Frame} {id : String} {t : ℕ} {task : TaskRecord}
      (hqueue : σ.manager.queue = id :: σ'.manager.queue)
      (ht : σ.manager.tasks.lookup id = some t) (htask : σ.heap[t]? = some task)
      (hstatus : task.status = .queued)
      (hfree : σ.manager.foregroundRunning σ.heap < σ.manager.limit) (hheap : σ'.heap = σ.heap)
      (htasks : σ'.manager.tasks = σ.manager.tasks)
      (hnotes : σ'.manager.notifications = σ.manager.notifications) (hlog : σ'.log = σ.log) :
    Happens ids σ σ' .next under (.admitting t) under
  /-- `runner.start` returns the control of the run. -/
  | started {now' : Now} {under under' : List Frame} {t : ℕ}
      (hnow : now' = .idle ∧ under = under' ∨ now' = .next ∧ under = .admitNext :: under')
      (hheap : σ'.heap = σ.heap.modify t fun task ↦ { task with hasControl := true })
      (htasks : σ'.manager.tasks = σ.manager.tasks) (hqueue : σ'.manager.queue = σ.manager.queue)
      (hnotes : σ'.manager.notifications = σ.manager.notifications) (hlog : σ'.log = σ.log) :
    Happens ids σ σ' .idle (.starting t :: under) now' under'

variable {ids : IdSource} {σ σ' : Session} {now now' : Now} {under under' : List Frame}

theorem ne_queued_of_settled {status : TaskStatus} (h : isTerminalStatus status = true) :
    status ≠ .queued := by
  rintro rfl
  cases h

/-- What a move leaves has the shape again. -/
theorem Session.Shape.happens (h : σ.Shape now under)
    (hstack : σ'.manager.stack = now'.frames ++ under') (hnested : Nested under')
    (hhappens : Happens ids σ σ' now under now' under') : σ'.Shape now' under' := by
  -- Where the tasks are steady and nothing is launched, all that was launched is where it was.
  have hquiet : AllSteady σ.heap σ'.heap → (∀ t, .launches t ∈ σ'.log → .launches t ∈ σ.log) →
      (∀ t status exit, now' = .settling t status exit → isTerminalStatus status = true) →
      (∀ t, now'.Enters t → t + 1 = σ.heap.length) →
      (∀ t, now' = .admitting t → t < σ.heap.length) → σ'.Shape now' under' := by
    intro hheap hlog hsettling hentering hadmitting
    have hlength : σ'.heap.length = σ.heap.length := hheap.length_eq.symm
    refine ⟨hstack, hnested, hsettling, hlength ▸ hentering, hlength ▸ hadmitting,
      fun t ht ↦ hlength ▸ h.known t (hlog t ht), fun t task' ht htask' hqueued ↦ ?_⟩
    obtain ⟨task, htask, hsteady⟩ := hheap.get? htask'
    refine h.launched t task (hlog t ht) htask (stage_eq_waiting.mp ?_)
    rw [← hsteady.stage]
    exact stage_eq_waiting.mpr hqueued
  cases hhappens with
  | turns hheap htasks hqueue hnotes hsilent hlog hturn =>
    refine hquiet hheap (fun t ht ↦ hlog ▸ ht) ?_ ?_ ?_
    · cases hturn with
      | stay => exact h.settling
      | exits t hstatus =>
        rintro _ _ _ ⟨⟩
        exact hstatus
      | ended t hstatus =>
        rintro _ _ _ ⟨⟩
        exact hstatus
      | _ => rintro _ _ _ ⟨⟩
    · cases hturn with
      | stay => exact h.entering
      | recorded t => exact h.entering
      | places t => exact h.entering
      | _ => rintro _ ⟨⟩
    · cases hturn with
      | stay => exact h.admitting
      | _ => rintro _ ⟨⟩
  | @enters _ task hheap hstatus hcontrol hid hdrawn htasks hqueue hnotes hlog =>
    have hlength : σ'.heap.length = σ.heap.length + 1 := by rw [hheap, List.length_append]; rfl
    refine ⟨hstack, hnested, by rintro _ _ _ ⟨⟩, ?_, by rintro _ ⟨⟩, fun t ht ↦ ?_,
      fun t task ht htask ↦ ?_⟩
    · rintro _ rfl
      exact hlength.symm
    · rw [hlog] at ht
      have hlt := h.known t ht
      omega
    · rw [hlog] at ht
      rw [hheap, List.getElem?_append_left (h.known t ht)] at htask
      exact h.launched t task ht htask
  | queues ht hplacement hfull hheap htasks hqueue hnotes hlog =>
    refine hquiet (hheap ▸ AllSteady.refl _) (fun t ht ↦ ?_) (by rintro _ _ _ ⟨⟩)
      (by rintro _ ⟨⟩) (by rintro _ ⟨⟩)
    rw [hlog] at ht
    simpa using ht
  | @launches _ _ _ t task task' hnow ht hheap hid hplacement hcontrol hstatus htasks hqueue hnotes
      hlog =>
    have hlength : σ'.heap.length = σ.heap.length := by rw [hheap, List.length_set]
    have hlt : t < σ.heap.length := (List.getElem?_eq_some_iff.mp ht).1
    have hlaunches : ∀ u, .launches u ∈ σ'.log → u = t ∨ .launches u ∈ σ.log := by
      intro u hu
      rw [hlog] at hu
      rcases List.mem_append.mp hu with hu | hu
      · exact .inr hu
      · cases List.mem_singleton.mp hu
        exact .inl rfl
    refine ⟨hstack, hnested, by rintro _ _ _ ⟨⟩, by rintro _ ⟨⟩, by rintro _ ⟨⟩, fun u hu ↦ ?_,
      fun u task₁ hu htask ↦ ?_⟩
    · rw [hlength]
      rcases hlaunches u hu with rfl | hu
      · exact hlt
      · exact h.known u hu
    · rw [hheap, List.getElem?_set] at htask
      split_ifs at htask with heq
      · cases htask
        rw [hstatus]
        decide
      · exact h.launched u task₁ ((hlaunches u hu).resolve_left (Ne.symm heq)) htask
  | ends ht hstage hstatus hnow hheap htasks hqueue hnotes hsilent hlog =>
    refine hquiet hheap (fun t ht ↦ ?_) ?_ ?_ ?_
    · rw [hlog] at ht
      rcases List.mem_append.mp ht with ht | ht
      · exact ht
      · split_ifs at ht <;> simp at ht
    · rcases hnow with ⟨-, rfl, -⟩ | ⟨-, rfl, -⟩
      · rintro _ _ _ ⟨⟩
      · rintro _ _ _ ⟨⟩
        exact hstatus
    · rcases hnow with ⟨-, rfl, -⟩ | ⟨-, rfl, -⟩ <;> rintro _ ⟨⟩
    · rcases hnow with ⟨-, rfl, -⟩ | ⟨-, rfl, -⟩ <;> rintro _ ⟨⟩
  | @settles _ t status exit _ task task' _ ht hstage hheap hid hplacement hcontrol hstatus htasks
      hqueue hnotes hsubject hkind hlog =>
    have hterminal := h.settling t status exit rfl
    have hlength : σ'.heap.length = σ.heap.length := by rw [hheap, List.length_set]
    refine ⟨hstack, hnested, by rintro _ _ _ ⟨⟩, by rintro _ ⟨⟩, by rintro _ ⟨⟩,
      fun u hu ↦ hlength ▸ h.known u (hlog ▸ hu), fun u task₁ hu htask ↦ ?_⟩
    rw [hheap, List.getElem?_set] at htask
    split_ifs at htask with heq
    · cases htask
      rw [hstatus]
      exact ne_queued_of_settled hterminal
    · exact h.launched u task₁ (hlog ▸ hu) htask
  | completes hnow hheap htasks hqueue hnotes hlog =>
    refine hquiet (hheap ▸ AllSteady.refl _) (fun t ht ↦ ?_) ?_ ?_ ?_
    · rw [hlog] at ht
      simpa using ht
    · rcases hnow with rfl | rfl <;> rintro _ _ _ ⟨⟩
    · rcases hnow with rfl | rfl <;> rintro _ ⟨⟩
    · rcases hnow with rfl | rfl <;> rintro _ ⟨⟩
  | skips hqueue hgone hheap htasks hnotes hlog =>
    exact hquiet (hheap ▸ AllSteady.refl _) (fun t ht ↦ hlog ▸ ht) (by rintro _ _ _ ⟨⟩)
      (by rintro _ ⟨⟩) (by rintro _ ⟨⟩)
  | admits hqueue ht htask hstatus hfree hheap htasks hnotes hlog =>
    refine hquiet (hheap ▸ AllSteady.refl _) (fun t ht ↦ hlog ▸ ht) (by rintro _ _ _ ⟨⟩)
      (by rintro _ ⟨⟩) ?_
    rintro _ ⟨⟩
    exact (List.getElem?_eq_some_iff.mp htask).1
  | @started _ _ _ t hnow hheap htasks hqueue hnotes hlog =>
    have hlength : σ'.heap.length = σ.heap.length := by rw [hheap, List.length_modify]
    refine ⟨hstack, hnested, ?_, ?_, ?_, fun u hu ↦ hlength ▸ h.known u (hlog ▸ hu),
      fun u task hu htask ↦ ?_⟩
    · rcases hnow with ⟨rfl, -⟩ | ⟨rfl, -⟩ <;> rintro _ _ _ ⟨⟩
    · rcases hnow with ⟨rfl, -⟩ | ⟨rfl, -⟩ <;> rintro _ ⟨⟩
    · rcases hnow with ⟨rfl, -⟩ | ⟨rfl, -⟩ <;> rintro _ ⟨⟩
    · rw [hheap, List.getElem?_modify] at htask
      obtain ⟨task₀, htask₀, rfl⟩ := Option.map_eq_some_iff.mp htask
      have hne := h.launched u task₀ (hlog ▸ hu) htask₀
      split_ifs <;> exact hne

/-! ## Quiet operations -/

/-- The manager says no more than how a task is getting on. -/
structure Manager.Quiet (m m' : Manager) : Prop where
  tasks : m'.tasks = m.tasks
  queue : m'.queue = m.queue
  stack : m'.stack = m.stack
  limit : m'.limit = m.limit
  hardStopBytes : m'.hardStopBytes = m.hardStopBytes
  notes : ∃ notes, m'.notifications = m.notifications ++ notes ∧
    ∀ n ∈ notes, n.isCompletion = false

variable {m m' : Manager} {answers : Answers}

theorem Manager.Quiet.refl (m : Manager) : m.Quiet m :=
  ⟨rfl, rfl, rfl, rfl, rfl, [], (List.append_nil _).symm, by simp⟩

theorem Manager.Quiet.trans {m'' : Manager} (h : m.Quiet m') (h' : m'.Quiet m'') :
    m.Quiet m'' where
  tasks := h'.tasks.trans h.tasks
  queue := h'.queue.trans h.queue
  stack := h'.stack.trans h.stack
  limit := h'.limit.trans h.limit
  hardStopBytes := h'.hardStopBytes.trans h.hardStopBytes
  notes := by
    obtain ⟨notes, heq, hnotes⟩ := h.notes
    obtain ⟨notes', heq', hnotes'⟩ := h'.notes
    refine ⟨notes ++ notes', ?_, List.forall_mem_append.mpr ⟨hnotes, hnotes'⟩⟩
    rw [heq', heq, List.append_assoc]

theorem quiet_notify (m : Manager) (task : TaskRecord) {kind : NotificationKind} (message : String)
    (answers : Answers) (hkind : kind = .inputRequest ∨ kind = .status) :
    m.Quiet (m.notify task kind message answers) := by
  refine ⟨rfl, rfl, rfl, rfl, rfl, _, rfl, fun n hn ↦ ?_⟩
  rw [List.mem_singleton.mp hn]
  rcases hkind with rfl | rfl <;> rfl

theorem quiet_enterAwaitingInput {request : InputRequest} {now : ℤ}
    (hlaunched : ∀ task, heap[t]? = some task → task.status ≠ .queued) :
    AllSteady heap (m.enterAwaitingInput heap t request now answers).1 ∧
      m.Quiet (m.enterAwaitingInput heap t request now answers).2 := by
  rw [Manager.enterAwaitingInput]
  cases ht : heap[t]? with
  | none => exact ⟨AllSteady.refl heap, .refl m⟩
  | some task =>
    dsimp only
    split_ifs with hterminal
    · exact ⟨AllSteady.refl heap, .refl m⟩
    · have hactive : task.status.stage = .active := by
        rw [TaskStatus.stage, if_neg (hlaunched task ht), if_neg hterminal]
      refine ⟨allSteady_modify fun task' ht' ↦ ?_, quiet_notify m task _ answers (.inl rfl)⟩
      obtain rfl := Option.some.inj (ht.symm.trans ht')
      exact .of_active hactive rfl rfl rfl rfl

/-- A wait that was detected becomes a request. -/
theorem quiet_promote (m : Manager) (heap : Heap) (t : ℕ) (now : ℤ) (answers : Answers) :
    let promoted := match heap[t]? with
      | none => (heap, m)
      | some task =>
        if task.status = TaskStatus.running ∧ ∃ since ∈ task.detectedWaitSince,
            inputWatchdogMs ≤ now - since then
          m.enterAwaitingInput heap t ⟨"input required (watchdog)", false⟩ now answers
        else (heap, m)
    AllSteady heap promoted.1 ∧ m.Quiet promoted.2 := by
  cases ht : heap[t]? with
  | none => exact ⟨AllSteady.refl heap, .refl m⟩
  | some task =>
    dsimp only
    split_ifs with hdue
    · refine quiet_enterAwaitingInput fun task' ht' ↦ ?_
      obtain rfl := Option.some.inj (ht.symm.trans ht')
      rw [hdue.1]
      decide
    · exact ⟨AllSteady.refl heap, .refl m⟩

/-- A request that no channel can answer blocks the task. -/
theorem quiet_block (hm : Heap × Manager) (t : ℕ) (now : ℤ) (answers : Answers) :
    let blocked := match hm.1[t]? with
      | none => hm
      | some task =>
        if task.status = TaskStatus.awaitingInput ∧ task.approvalChannel = false ∧
            ∃ since ∈ task.awaitingSince, blockedAfterMs ≤ now - since then
          (hm.1.modify t fun task ↦ { task with status := TaskStatus.blocked },
            hm.2.notify task .status ("task " ++ task.id ++ " blocked: no input channel") answers)
        else hm
    AllSteady hm.1 blocked.1 ∧ hm.2.Quiet blocked.2 := by
  cases ht : hm.1[t]? with
  | none => exact ⟨AllSteady.refl _, .refl _⟩
  | some task =>
    dsimp only
    split_ifs with hdue
    · refine ⟨allSteady_modify fun task' ht' ↦ ?_, quiet_notify _ task _ answers (.inr rfl)⟩
      obtain rfl := Option.some.inj (ht.symm.trans ht')
      have hactive : task.status.stage = .active := by rw [hdue.1]; rfl
      exact .of_active hactive rfl rfl rfl rfl
    · exact ⟨AllSteady.refl _, .refl _⟩

theorem quiet_checkWatchdog (now : ℤ) (answers : Answers) (t : ℕ) (hm : Heap × Manager) :
    AllSteady hm.1 (Manager.checkWatchdog now answers hm t).1 ∧
      hm.2.Quiet (Manager.checkWatchdog now answers hm t).2 := by
  obtain ⟨hheap, hquiet⟩ := quiet_promote hm.2 hm.1 t now answers
  obtain ⟨hheap', hquiet'⟩ := quiet_block _ t now answers
  exact ⟨hheap.trans hheap', hquiet.trans hquiet'⟩

theorem quiet_checkWatchdogs (m : Manager) (heap : Heap) (now : ℤ) (answers : Answers) :
    AllSteady heap (m.checkWatchdogs heap now answers).1 ∧
      m.Quiet (m.checkWatchdogs heap now answers).2 := by
  rw [Manager.checkWatchdogs]
  have hfold : ∀ (ts : List ℕ) (hm : Heap × Manager),
      AllSteady hm.1 (ts.foldl (Manager.checkWatchdog now answers) hm).1 ∧
        hm.2.Quiet (ts.foldl (Manager.checkWatchdog now answers) hm).2 := by
    intro ts
    induction ts with
    | nil => exact fun hm ↦ ⟨AllSteady.refl _, .refl _⟩
    | cons t ts ih =>
      intro hm
      obtain ⟨hheap, hquiet⟩ := quiet_checkWatchdog now answers t hm
      obtain ⟨hheap', hquiet'⟩ := ih (Manager.checkWatchdog now answers hm t)
      exact ⟨hheap.trans hheap', hquiet.trans hquiet'⟩
  exact hfold _ (heap, m)

/-! ## Every move -/

/-- The move did one of the things that can happen. -/
def Session.Goes (ids : IdSource) (σ σ' : Session) (now : Now) (under : List Frame) : Prop :=
  ∃ now' under', σ'.manager.stack = now'.frames ++ under' ∧ σ'.manager.limit = σ.manager.limit ∧
    Nested under' ∧ Happens ids σ σ' now under now' under'

theorem Session.Shape.stays (h : σ.Shape now under) (hheap : AllSteady σ.heap σ'.heap)
    (hquiet : σ.manager.Quiet σ'.manager) (hlog : σ'.log = σ.log) : σ.Goes ids σ' now under := by
  obtain ⟨notes, hnotes, hsilent⟩ := hquiet.notes
  exact ⟨now, under, hquiet.stack.trans h.stack, hquiet.limit, h.nested,
    .turns hheap hquiet.tasks hquiet.queue hnotes hsilent hlog .stay⟩

/-- Only what the manager is in the middle of changes, or what it knows of the sink. -/
theorem goes_turn {sideEffectIds : List (String × String)} {drawn : ℕ} {heap : Heap}
    (hheap : AllSteady σ.heap heap) (hnested : Nested under') {stack : List Frame}
    (hturn : Turn σ ⟨heap, { σ.manager with stack, sideEffectIds }, drawn, σ.log ++ []⟩
      now under now' under')
    (hstack : stack = now'.frames ++ under') :
    σ.Goes ids ⟨heap, { σ.manager with stack, sideEffectIds }, drawn, σ.log ++ []⟩ now under :=
  ⟨now', under', hstack, rfl, hnested,
    .turns hheap rfl rfl (List.append_nil _).symm (by simp) (List.append_nil _) hturn⟩

/-- An exception that comes through an open manager leaves it as it is. -/
theorem Session.Shape.throws (h : σ.Shape now under) (hopen : σ.manager.isOpen = true) :
    σ.manager.throws = σ.manager := by
  obtain rfl := h.isOpen hopen
  have hstack : σ.manager.stack = under := h.stack
  rw [Manager.throws, hstack, h.nested.dropWhile, ← hstack]

/-- The manager sets out to end a task that has not ended. -/
theorem Session.Shape.ending (h : σ.Shape .idle under) (ht : σ.heap[t]? = some task)
    (hstage : isTerminalStatus task.status = false) {status : TaskStatus}
    (hstatus : isTerminalStatus status = true) (exit : RunnerExit) {heap : Heap} {m : Manager}
    {drawn : ℕ} (hheap : AllSteady σ.heap heap) (hquiet : σ.manager.Quiet m) :
    σ.Goes ids ⟨heap, m.push ((if task.hasControl then [.steering t] else []) ++
      [.settle t status exit]), drawn, σ.log ++ endingActs σ.heap t⟩ .idle under := by
  have hstack : m.stack = under := hquiet.stack.trans h.stack
  obtain ⟨notes, hnotes, hsilent⟩ := hquiet.notes
  have hacts : endingActs σ.heap t = .ends t :: if task.hasControl then [.cancels t] else [] := by
    rw [endingActs, ht]
    dsimp only
    rw [hstage]
    rfl
  rw [hacts]
  cases hcontrol : task.hasControl with
  | true =>
    refine ⟨.idle, .steering t :: .settle t status exit :: under, ?_, hquiet.limit,
      .ending t hstatus h.nested, .ends ht hstage hstatus (.inl ⟨hcontrol, rfl, rfl⟩) hheap
        hquiet.tasks hquiet.queue hnotes hsilent ?_⟩
    · rw [Manager.push, hstack]
      rfl
    · rw [hcontrol]
  | false =>
    refine ⟨.settling t status exit, under, ?_, hquiet.limit, h.nested,
      .ends ht hstage hstatus (.inr ⟨hcontrol, rfl, rfl⟩) hheap hquiet.tasks hquiet.queue hnotes
        hsilent ?_⟩
    · rw [Manager.push, hstack]
      rfl
    · rw [hcontrol]

section Calls

variable {drawn : ℕ}

theorem Session.Shape.goes_stop (h : σ.Shape now under) (hopen : σ.manager.isOpen = true)
    (id : String) :
    σ.Goes ids ⟨σ.heap, σ.manager.stop σ.heap id, drawn, σ.log ++ σ.acts (.stop id)⟩ now under := by
  have hnow := h.isOpen hopen
  subst hnow
  rw [Session.acts, Manager.stop]
  cases hid : σ.manager.tasks.lookup id with
  | none =>
    refine h.stays (AllSteady.refl _) ?_ (List.append_nil _)
    rw [h.throws hopen]
    exact .refl _
  | some t =>
    dsimp only
    cases ht : σ.heap[t]? with
    | none =>
      refine h.stays (AllSteady.refl _) (.refl _) ?_
      rw [endingActs, ht]
      exact List.append_nil _
    | some task =>
      dsimp only
      by_cases hterminal : isTerminalStatus task.status = true
      · rw [if_pos hterminal]
        refine h.stays (AllSteady.refl _) (.refl _) ?_
        rw [endingActs, ht]
        dsimp only
        rw [if_pos hterminal]
        exact List.append_nil _
      · rw [if_neg hterminal]
        refine h.ending ht (Bool.eq_false_iff.mpr hterminal) ?_ _ (AllSteady.refl _) (.refl _)
        rfl

theorem Session.Shape.goes_provideInput (h : σ.Shape now under)
    (hopen : σ.manager.isOpen = true) (id : String) :
    σ.Goes ids ⟨(σ.manager.provideInput σ.heap id).1, (σ.manager.provideInput σ.heap id).2, drawn,
      σ.log ++ []⟩ now under := by
  have hthrows : σ.Goes ids ⟨σ.heap, σ.manager.throws, drawn, σ.log ++ []⟩ now under := by
    refine h.stays (AllSteady.refl _) ?_ (List.append_nil _)
    rw [h.throws hopen]
    exact .refl _
  have hnow := h.isOpen hopen
  subst hnow
  have hstack : σ.manager.stack = under := h.stack
  rw [Manager.provideInput]
  cases hid : σ.manager.tasks.lookup id with
  | none => exact hthrows
  | some t =>
    dsimp only
    cases ht : σ.heap[t]? with
    | none => exact h.stays (AllSteady.refl _) (.refl _) (List.append_nil _)
    | some task =>
      dsimp only
      by_cases hwaits : task.status = .awaitingInput ∨ task.status = .blocked
      · rw [if_pos hwaits]
        have hactive : task.status.stage = .active := by
          rcases hwaits with hs | hs <;> rw [hs] <;> rfl
        have hheap : AllSteady σ.heap (σ.heap.modify t fun task ↦
            { task with
              status := .running, awaitingSince := none, detectedWaitSince := none
              lastInputRequest := none }) := by
          refine allSteady_modify fun task' ht' ↦ ?_
          obtain rfl := Option.some.inj (ht.symm.trans ht')
          exact .of_active hactive rfl rfl rfl rfl
        by_cases hcontrol : task.hasControl = true
        · rw [if_pos hcontrol]
          exact goes_turn hheap (.steering t h.nested) (.steer t)
            (congrArg ([Frame.steering t] ++ ·) hstack)
        · rw [if_neg hcontrol]
          exact goes_turn hheap h.nested .stay h.stack
      · rw [if_neg hwaits]
        exact hthrows

theorem Session.Shape.goes_awaitTask (h : σ.Shape now under) (hopen : σ.manager.isOpen = true)
    (id : String) :
    σ.Goes ids ⟨(σ.manager.awaitTask σ.heap id).1, (σ.manager.awaitTask σ.heap id).2, drawn,
      σ.log ++ []⟩ now under := by
  rw [Manager.awaitTask]
  cases hid : σ.manager.tasks.lookup id with
  | none =>
    refine h.stays (AllSteady.refl _) ?_ (List.append_nil _)
    dsimp only
    rw [h.throws hopen]
    exact .refl _
  | some t =>
    refine h.stays (allSteady_modify fun task _ ↦ ?_) (.refl _) (List.append_nil _)
    split_ifs with hterminal
    · exact .refl task
    · exact ⟨rfl, rfl, rfl, rfl, fun _ ↦ rfl, fun hs ↦ absurd (stage_eq_settled.mp hs) hterminal⟩

theorem Session.Shape.goes_start (h : σ.Shape now under) (hopen : σ.manager.isOpen = true)
    (input : StartInput) (time : ℤ) (hdrawn : σ.drawn < drawn) {m : Heap × Manager}
    (hm : σ.manager.start σ.heap input ⟨time, fun _ ↦ ids.next σ.drawn "bgt"⟩ = m) :
    σ.Goes ids ⟨m.1, m.2, drawn, σ.log ++ []⟩ now under := by
  have hnow := h.isOpen hopen
  subst hnow
  subst hm
  refine ⟨.recording σ.heap.length, under, ?_, rfl, h.nested,
    .enters rfl rfl rfl rfl hdrawn rfl rfl rfl (List.append_nil _)⟩
  exact congrArg ([Frame.recordStart σ.heap.length, .place σ.heap.length] ++ ·) h.stack

end Calls

section Callbacks

variable {drawn : ℕ}

theorem Session.Shape.goes_output (h : σ.Shape now under) (hopen : σ.manager.isOpen = true)
    (t : ℕ) (answers : Answers) (chunk : List UInt16) :
    σ.Goes ids ⟨(σ.manager.onOutput σ.heap t chunk answers).1,
      (σ.manager.onOutput σ.heap t chunk answers).2, drawn,
      σ.log ++ σ.acts (.callback t answers (.output chunk))⟩ now under := by
  have hnow := h.isOpen hopen
  subst hnow
  rw [Session.acts, Manager.onOutput]
  cases ht : σ.heap[t]? with
  | none => exact h.stays (AllSteady.refl _) (.refl _) (List.append_nil _)
  | some task =>
    dsimp only
    by_cases hterminal : isTerminalStatus task.status = true
    · rw [if_pos hterminal]
      refine h.stays (AllSteady.refl _) (.refl _) ?_
      have hacts : endingActs σ.heap t = [] := by
        rw [endingActs, ht]
        exact if_pos hterminal
      dsimp only
      rw [hacts, ite_self, List.append_nil]
    · rw [if_neg hterminal]
      have hfalse := Bool.eq_false_iff.mpr hterminal
      -- What is said and kept of the output.
      have hheap : ∀ warned : Bool, AllSteady σ.heap
          (σ.heap.set t { task.takeOutput chunk with outputWarned := warned }) := by
        intro warned
        exact allSteady_set ht ⟨rfl, rfl, rfl, rfl,
          fun hsettled ↦ absurd (stage_eq_settled.mp hsettled) hterminal, fun _ ↦ le_rfl⟩
      have hquiet : ∀ (warns : Bool) (message : String), σ.manager.Quiet
          (if warns = true then σ.manager.notify task .status message answers else σ.manager) := by
        intro warns message
        split_ifs
        · exact quiet_notify _ task message answers (.inr rfl)
        · exact .refl _
      have hgoes : ∀ (m : Manager) (warned : Bool), σ.manager.Quiet m → σ.Goes ids
          ⟨σ.heap.set t { task.takeOutput chunk with outputWarned := warned },
            if m.hardStopBytes ≤ (task.takeOutput chunk).outputBytes then
              m.push ((if task.hasControl then [.steering t] else []) ++
                [.settle t .failed ⟨false, none, some "output hard-stop limit exceeded"⟩])
            else m, drawn,
            σ.log ++ if σ.manager.hardStopBytes ≤ task.outputBytes + chunk.length then
              endingActs σ.heap t else []⟩ .idle under := by
        intro m warned hm
        have hsame : m.hardStopBytes ≤ (task.takeOutput chunk).outputBytes ↔
            σ.manager.hardStopBytes ≤ task.outputBytes + chunk.length := by
          rw [hm.hardStopBytes]
          exact Iff.rfl
        by_cases hover : σ.manager.hardStopBytes ≤ task.outputBytes + chunk.length
        · rw [if_pos hover, if_pos (hsame.mpr hover)]
          exact h.ending ht hfalse rfl _ (hheap warned) hm
        · rw [if_neg hover, if_neg (mt hsame.mp hover)]
          exact h.stays (hheap warned) hm (List.append_nil _)
      exact hgoes _ _ (hquiet _ _)

theorem Session.Shape.goes_callback (h : σ.Shape now under) (hopen : σ.manager.isOpen = true)
    (t : ℕ) (hlaunched : .launches t ∈ σ.log) (answers : Answers) (callback : Callback) :
    σ.Goes ids ⟨(σ.manager.callback σ.heap t answers callback).1,
      (σ.manager.callback σ.heap t answers callback).2, drawn,
      σ.log ++ σ.acts (.callback t answers callback)⟩ now under := by
  cases callback with
  | output chunk => exact h.goes_output hopen t answers chunk
  | inputRequest request =>
    have hsteady : AllSteady σ.heap
          (σ.manager.enterAwaitingInput σ.heap t request answers.now answers).1 ∧
        σ.manager.Quiet (σ.manager.enterAwaitingInput σ.heap t request answers.now answers).2 :=
      quiet_enterAwaitingInput fun task ↦ h.launched t task hlaunched
    exact h.stays hsteady.1 hsteady.2 (List.append_nil _)
  | inputWaitDetected =>
    refine h.stays (allSteady_modify fun task _ ↦ ?_) (.refl _) (List.append_nil _)
    split_ifs
    · exact ⟨rfl, rfl, rfl, rfl, fun _ ↦ rfl, fun _ ↦ le_rfl⟩
    · exact .refl task
  | exit exit =>
    have hnow := h.isOpen hopen
    subst hnow
    rw [Manager.callback, Manager.onExit]
    cases ht : σ.heap[t]? with
    | none => exact h.stays (AllSteady.refl _) (.refl _) (List.append_nil _)
    | some task =>
      dsimp only
      by_cases hterminal : isTerminalStatus task.status = true
      · rw [if_pos hterminal]
        exact h.stays (AllSteady.refl _) (.refl _) (List.append_nil _)
      · rw [if_neg hterminal]
        have hstatus : isTerminalStatus (if exit.ok then .succeeded else .failed) = true := by
          cases exit.ok <;> rfl
        exact goes_turn (AllSteady.refl _) h.nested (.exits t hstatus)
          (congrArg ([Frame.settle t (if exit.ok then .succeeded else .failed) exit] ++ ·) h.stack)

end Callbacks

section Work

variable {drawn : ℕ}

/-- The manager works off the frame on top. -/
theorem Session.Shape.goes_work (h : σ.Shape now under) (answers : Answers) :
    σ.Goes ids ⟨(σ.manager.work σ.heap answers).2.1, (σ.manager.work σ.heap answers).2.2, drawn,
      σ.log ++ σ.acts (.work answers)⟩ now under := by
  have hstack := h.stack
  have hnested := h.nested
  cases now with
  | idle =>
    -- Nothing is under way but calls of the runner.
    have hidle : σ.manager.work σ.heap answers = (.none, σ.heap, σ.manager) ∧
        σ.acts (.work answers) = [] := by
      rw [Manager.work, Session.acts]
      replace hstack : σ.manager.stack = under := hstack
      rw [hstack]
      cases hnested <;> exact ⟨rfl, rfl⟩
    rw [hidle.1, hidle.2]
    exact h.stays (AllSteady.refl _) (.refl _) (List.append_nil _)
  | recording t =>
    replace hstack : σ.manager.stack = .recordStart t :: .place t :: under := hstack
    obtain ⟨task, ht⟩ : ∃ task, σ.heap[t]? = some task := by
      have hlength := h.entering t rfl
      exact ⟨_, List.getElem?_eq_getElem (by omega)⟩
    simp only [Manager.work, Session.acts, hstack, ht]
    exact goes_turn (AllSteady.refl _) hnested (.recorded t) rfl
  | placing t =>
    replace hstack : σ.manager.stack = .place t :: under := hstack
    obtain ⟨task, ht⟩ : ∃ task, σ.heap[t]? = some task := by
      have hlength := h.entering t rfl
      exact ⟨_, List.getElem?_eq_getElem (by omega)⟩
    simp only [Manager.work, Session.acts, hstack, ht]
    by_cases hfree : task.placement = .background ∨
        σ.manager.foregroundRunning σ.heap < σ.manager.limit
    · rw [if_pos hfree, if_pos hfree]
      refine goes_turn (AllSteady.refl _) hnested (.places t fun task' ht' ↦ ?_)
        (congrArg ([Frame.launch t] ++ List.tail ·) hstack)
      obtain rfl := Option.some.inj (ht.symm.trans ht')
      exact hfree
    · rw [if_neg hfree, if_neg hfree]
      obtain ⟨hplacement, hfull⟩ := not_or.mp hfree
      have hforeground : task.placement = .foreground := by
        cases hp : task.placement with
        | foreground => rfl
        | background => exact absurd hp hplacement
      exact ⟨.idle, under, rfl, rfl, hnested,
        .queues ht hforeground (not_lt.mp hfull) rfl rfl rfl rfl rfl⟩
  | launching t =>
    replace hstack : σ.manager.stack = .launch t :: under := hstack
    obtain ⟨task, ht⟩ : ∃ task, σ.heap[t]? = some task := by
      have hlength := h.entering t rfl
      exact ⟨_, List.getElem?_eq_getElem (by omega)⟩
    simp only [Manager.work, Session.acts, hstack, ht]
    exact ⟨.idle, .starting t :: under, congrArg ([Frame.starting t] ++ List.tail ·) hstack, rfl,
      .starting t hnested, .launches (.inl ⟨rfl, rfl⟩) ht rfl rfl rfl rfl rfl rfl rfl rfl rfl⟩
  | admitting t =>
    replace hstack : σ.manager.stack = .launch t :: .admitNext :: under := hstack
    obtain ⟨task, ht⟩ : ∃ task, σ.heap[t]? = some task :=
      ⟨_, List.getElem?_eq_getElem (h.admitting t rfl)⟩
    simp only [Manager.work, Session.acts, hstack, ht]
    exact ⟨.idle, .starting t :: .admitNext :: under,
      congrArg ([Frame.starting t] ++ List.tail ·) hstack, rfl, .admitting t hnested,
      .launches (.inr ⟨rfl, rfl⟩) ht rfl rfl rfl rfl rfl rfl rfl rfl rfl⟩
  | settling t status exit =>
    replace hstack : σ.manager.stack = .settle t status exit :: under := hstack
    simp only [Manager.work, Session.acts, hstack]
    cases ht : σ.heap[t]? with
    | none =>
      refine goes_turn (AllSteady.refl _) hnested (.settled t fun task ht' ↦ ?_)
        (congrArg List.tail hstack)
      cases ht.symm.trans ht'
    | some task =>
      dsimp only
      by_cases hterminal : isTerminalStatus task.status = true
      · rw [if_pos hterminal]
        refine goes_turn (AllSteady.refl _) hnested (.settled t fun task' ht' ↦ ?_)
          (congrArg List.tail hstack)
        obtain rfl := Option.some.inj (ht.symm.trans ht')
        exact hterminal
      · rw [if_neg hterminal]
        refine ⟨.completing t (decide (status = .succeeded)), under,
          congrArg ([Frame.recordStarted t, .recordSettled t (decide (status = .succeeded)),
            .conclude t] ++ List.tail ·) hstack, rfl, hnested,
          .settles ht (Bool.eq_false_iff.mpr hterminal) (modify_eq_set ht) rfl rfl rfl rfl rfl rfl
            rfl rfl ?_ (List.append_nil _)⟩
        rw [Notification.isCompletion]
        by_cases hs : status = .succeeded
        · simp [hs]
        · simp [hs]
  | completing t ok =>
    replace hstack : σ.manager.stack =
      .recordStarted t :: .recordSettled t ok :: .conclude t :: under := hstack
    simp only [Manager.work, Session.acts, hstack]
    cases hid : (σ.heap[t]?).bind fun task ↦ σ.manager.sideEffectIds.lookup task.id with
    | none =>
      exact ⟨.concluding t, under, rfl, rfl, hnested,
        .completes (.inr rfl) rfl rfl rfl rfl rfl⟩
    | some sideEffectId =>
      exact ⟨.reporting t ok, under, congrArg List.tail hstack, rfl, hnested,
        .completes (.inl rfl) rfl rfl rfl rfl rfl⟩
  | reporting t ok =>
    replace hstack : σ.manager.stack = .recordSettled t ok :: .conclude t :: under := hstack
    simp only [Manager.work, Session.acts, hstack]
    have hturns : ∀ request : Request, σ.Goes ids
        ⟨(request, σ.heap, σ.manager.pop).2.1, (request, σ.heap, σ.manager.pop).2.2, drawn,
          σ.log ++ []⟩ (.reporting t ok) under := fun request ↦
      goes_turn (AllSteady.refl _) hnested (.reported t) (congrArg List.tail hstack)
    cases ht : σ.heap[t]? with
    | none => exact hturns .none
    | some task =>
      dsimp only
      cases hid : σ.manager.sideEffectIds.lookup task.id with
      | none => exact hturns .none
      | some sideEffectId => exact hturns (.recordSettled sideEffectId task.id ok)
  | concluding t =>
    replace hstack : σ.manager.stack = .conclude t :: under := hstack
    simp only [Manager.work, Session.acts, hstack]
    have hheap : AllSteady σ.heap (σ.heap.modify t fun task ↦ { task with waiters := 0 }) :=
      allSteady_modify fun task _ ↦ ⟨rfl, rfl, rfl, rfl, fun _ ↦ rfl, fun _ ↦ Nat.zero_le _⟩
    have hwaiters : ∀ task,
        (σ.heap.modify t fun task ↦ { task with waiters := 0 })[t]? = some task →
          task.waiters = 0 := by
      intro task ht
      rw [List.getElem?_modify_eq] at ht
      obtain ⟨task₀, -, rfl⟩ := Option.map_eq_some_iff.mp ht
      rfl
    cases ht : σ.heap[t]? with
    | none =>
      refine goes_turn hheap hnested (.concluded t hwaiters fun task ht' ↦ ?_)
        (congrArg List.tail hstack)
      cases ht.symm.trans ht'
    | some task =>
      dsimp only
      by_cases hplacement : task.placement = .foreground
      · rw [if_pos hplacement]
        exact goes_turn hheap hnested (.frees t hwaiters)
          (congrArg ([Frame.admitNext] ++ List.tail ·) hstack)
      · rw [if_neg hplacement]
        refine goes_turn hheap hnested (.concluded t hwaiters fun task' ht' ↦ ?_)
          (congrArg List.tail hstack)
        obtain rfl := Option.some.inj (ht.symm.trans ht')
        exact hplacement
  | next =>
    replace hstack : σ.manager.stack = .admitNext :: under := hstack
    simp only [Manager.work, Session.acts, hstack]
    cases hqueue : σ.manager.queue with
    | nil =>
      exact goes_turn (AllSteady.refl _) hnested (.rests (.inl hqueue)) (congrArg List.tail hstack)
    | cons id rest =>
      dsimp only
      by_cases hfree : σ.manager.foregroundRunning σ.heap < σ.manager.limit
      · rw [if_pos hfree]
        cases hid : σ.manager.tasks.lookup id with
        | none =>
          refine ⟨.next, under, rfl, rfl, hnested,
            .skips hqueue (fun t task ht ↦ ?_) rfl rfl rfl (List.append_nil _)⟩
          cases hid.symm.trans ht
        | some t =>
          dsimp only
          by_cases hqueued : (σ.heap[t]?).map TaskRecord.status = some .queued
          · rw [if_pos hqueued]
            obtain ⟨task, ht, hstatus⟩ := Option.map_eq_some_iff.mp hqueued
            exact ⟨.admitting t, under, rfl, rfl, hnested,
              .admits hqueue hid ht hstatus hfree rfl rfl rfl (List.append_nil _)⟩
          · rw [if_neg hqueued]
            refine ⟨.next, under, rfl, rfl, hnested,
              .skips hqueue (fun u task hu ht hstatus ↦ hqueued ?_) rfl rfl rfl
                (List.append_nil _)⟩
            obtain rfl := Option.some.inj (hid.symm.trans hu)
            rw [ht, Option.map_some, hstatus]
      · rw [if_neg hfree]
        exact goes_turn (AllSteady.refl _) hnested (.rests (.inr (not_lt.mp hfree)))
          (congrArg List.tail hstack)

theorem Session.Shape.goes_runnerReturns (h : σ.Shape now under) :
    σ.Goes ids ⟨(σ.manager.runnerReturns σ.heap).1, (σ.manager.runnerReturns σ.heap).2, drawn,
      σ.log ++ []⟩ now under := by
  have hstack := h.stack
  have hsame : σ.manager.runnerReturns σ.heap = (σ.heap, σ.manager) →
      σ.Goes ids ⟨(σ.manager.runnerReturns σ.heap).1, (σ.manager.runnerReturns σ.heap).2, drawn,
        σ.log ++ []⟩ now under := by
    intro heq
    rw [heq]
    exact h.stays (AllSteady.refl _) (.refl _) (List.append_nil _)
  by_cases hidle : now = .idle
  · subst hidle
    replace hstack : σ.manager.stack = under := hstack
    cases h.nested with
    | nil =>
      refine hsame ?_
      rw [Manager.runnerReturns, hstack]
    | starting t hnested =>
      simp only [Manager.runnerReturns, hstack]
      exact ⟨.idle, _, congrArg List.tail hstack, rfl, hnested,
        .started (.inl ⟨rfl, rfl⟩) rfl rfl rfl rfl (List.append_nil _)⟩
    | admitting t hnested =>
      simp only [Manager.runnerReturns, hstack]
      exact ⟨.next, _, congrArg List.tail hstack, rfl, hnested,
        .started (.inr ⟨rfl, rfl⟩) rfl rfl rfl rfl (List.append_nil _)⟩
    | steering t hnested =>
      simp only [Manager.runnerReturns, hstack]
      exact goes_turn (AllSteady.refl _) hnested (.steered t) (congrArg List.tail hstack)
    | ending t hstatus hnested =>
      simp only [Manager.runnerReturns, hstack]
      exact goes_turn (AllSteady.refl _) hnested (.ended t hstatus) (congrArg List.tail hstack)
  · refine hsame ?_
    rw [Manager.runnerReturns, hstack]
    cases now with
    | idle => exact absurd rfl hidle
    | _ => rfl

theorem Session.Shape.goes_runnerThrows (h : σ.Shape now under)
    (hallows : σ.allows .runnerThrows = true) :
    σ.Goes ids ⟨σ.heap, σ.manager.runnerThrows, drawn, σ.log ++ []⟩ now under := by
  have hstack := h.stack
  rw [Session.allows, hstack] at hallows
  cases now with
  | idle =>
    replace hstack : σ.manager.stack = under := hstack
    cases h.nested with
    | nil => cases hallows
    | @starting t under hnested =>
      simp only [Manager.runnerThrows, hstack]
      refine goes_turn (AllSteady.refl _) hnested (.refused t) ?_
      exact (congrArg (fun stack ↦ List.dropWhile (!·.isRunner) (List.tail stack)) hstack).trans
        hnested.dropWhile
    | @admitting t under hnested =>
      simp only [Manager.runnerThrows, hstack]
      refine goes_turn (AllSteady.refl _) hnested (.dropped t) ?_
      exact (congrArg (fun stack ↦ List.dropWhile (!·.isRunner) (List.tail stack)) hstack).trans
        hnested.dropWhile
    | @steering t under hnested =>
      simp only [Manager.runnerThrows, hstack]
      refine goes_turn (AllSteady.refl _) hnested (.steered t) ?_
      exact (congrArg (fun stack ↦ List.dropWhile (!·.isRunner) (List.tail stack)) hstack).trans
        hnested.dropWhile
    | @ending t _ _ under hstatus hnested =>
      simp only [Manager.runnerThrows, hstack]
      refine goes_turn (AllSteady.refl _) hnested (.threw t) ?_
      exact (congrArg (fun stack ↦ List.dropWhile (!·.isRunner) (List.tail stack)) hstack).trans
        hnested.dropWhile
  | _ => cases hallows

end Work

/-- **What a move of a session can do.** -/
theorem Session.Shape.goes (h : σ.Shape now under) (move : SessionMove) :
    σ.Goes ids (σ.step ids move) now under := by
  rw [Session.step]
  by_cases hallows : σ.allows move = true
  · rw [if_pos hallows]
    cases move with
    | start input time => exact h.goes_start hallows input time (Nat.lt_succ_self _) rfl
    | stop id => exact h.goes_stop hallows id
    | provideInput id => exact h.goes_provideInput hallows id
    | awaitTask id => exact h.goes_awaitTask hallows id
    | checkWatchdogs time answers =>
      obtain ⟨hheap, hquiet⟩ := quiet_checkWatchdogs σ.manager σ.heap time answers
      exact h.stays hheap hquiet (List.append_nil _)
    | callback t answers callback =>
      obtain ⟨hopen, hlaunched⟩ := Bool.and_eq_true_iff.mp hallows
      exact h.goes_callback hopen t (of_decide_eq_true hlaunched) answers callback
    | work answers => exact h.goes_work answers
    | runnerReturns => exact h.goes_runnerReturns
    | runnerThrows => exact h.goes_runnerThrows hallows
    | draw => exact h.stays (AllSteady.refl _) (.refl _) (List.append_nil _)
  · rw [if_neg hallows]
    exact h.stays (AllSteady.refl _) (.refl _) rfl

end QwenHarness.Background
