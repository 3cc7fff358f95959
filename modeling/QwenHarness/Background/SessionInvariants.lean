import QwenHarness.Background.SessionSteps
import QwenHarness.Table.Assoc

/-!
# What holds of a session between its moves

While the runner is called to start a task, the task is out of the queue and has no control. The map
has every task under its id. While a task is queued the slots are taken, but for one that is just
given on. What has ended was told to all, but for the task that is being settled.
-/

namespace QwenHarness.Background

/-! ## What happens to a record -/

/-- The tasks that the runner is called to start. -/
def startings : List Frame → List ℕ
  | [] => []
  | .starting t :: under => t :: startings under
  | _ :: under => startings under

/-- What a move can do to one record. -/
inductive Changes (now : Now) (under : List Frame) (now' : Now) (under' : List Frame) (t : ℕ)
    (task task' : TaskRecord) : Prop
  | steady (hstarting : ∀ u ∈ startings under', u = t → u ∈ startings under)
      (h : Steady task task')
  | launched (hnow : now = .launching t ∨ now = .admitting t) (hnow' : now' = .idle)
      (hstatus : task'.status = .running) (hcontrol : task'.hasControl = task.hasControl)
  | settled (status : TaskStatus) (exit : RunnerExit) (ok : Bool)
      (hnow : now = .settling t status exit) (hnow' : now' = .completing t ok)
      (hunder : under' = under) (hstage : isTerminalStatus task.status = false)
      (hstatus : task'.status = status) (hcontrol : task'.hasControl = false)
  | started (hunder : startings under = t :: startings under')
      (hstatus : task'.status = task.status) (hwaiters : task'.waiters = task.waiters)

variable {ids : IdSource} {σ σ' : Session} {now now' : Now} {under under' : List Frame} {t : ℕ}
  {task task' : TaskRecord}

theorem startings_turn (h : Turn σ σ' now under now' under') :
    startings under' ⊆ startings under := by
  cases h with
  | refused t => exact List.subset_cons_self _ _
  | dropped t => exact List.subset_cons_self _ _
  | _ => exact List.Subset.refl _

/-- **What a move can do to a record.** -/
theorem Happens.record (h : Happens ids σ σ' now under now' under')
    (ht : σ'.heap[t]? = some task') :
    (now' = .recording t ∧ t = σ.heap.length ∧ task'.status = .queued ∧
      task'.hasControl = false ∧ under' = under) ∨
    ∃ task, σ.heap[t]? = some task ∧ task'.id = task.id ∧ task'.placement = task.placement ∧
      Changes now under now' under' t task task' := by
  have hsteady : AllSteady σ.heap σ'.heap → startings under' ⊆ startings under →
      ∃ task, σ.heap[t]? = some task ∧ task'.id = task.id ∧ task'.placement = task.placement ∧
        Changes now under now' under' t task task' := by
    intro hheap hsub
    obtain ⟨task, htask, hs⟩ := hheap.get? ht
    exact ⟨task, htask, hs.id, hs.placement, .steady (fun u hu _ ↦ hsub hu) hs⟩
  cases h with
  | turns hheap htasks hqueue hnotes hquiet hlog hturn =>
    exact .inr (hsteady hheap (startings_turn hturn))
  | enters hheap hstatus hcontrol hid hdrawn htasks hqueue hnotes hlog =>
    rw [hheap] at ht
    by_cases hlt : t < σ.heap.length
    · rw [List.getElem?_append_left hlt] at ht
      exact .inr ⟨task', ht, rfl, rfl, .steady (fun u hu _ ↦ hu) (.refl _)⟩
    · rw [List.getElem?_append_right (not_lt.mp hlt)] at ht
      obtain ⟨hone, hget⟩ := List.getElem?_eq_some_iff.mp ht
      rw [List.length_singleton, Nat.lt_one_iff] at hone
      rw [List.getElem_singleton] at hget
      obtain rfl : t = σ.heap.length := by omega
      exact .inl ⟨rfl, rfl, hget ▸ hstatus, hget ▸ hcontrol, rfl⟩
  | queues ht' hplacement hfull hheap htasks hqueue hnotes hlog =>
    exact .inr (hsteady (hheap ▸ AllSteady.refl _) (List.Subset.refl _))
  | @launches _ _ _ u old new hnow hu hheap hid hplacement hcontrol hstatus htasks hqueue hnotes
      hlog =>
    rw [hheap, List.getElem?_set] at ht
    split_ifs at ht with heq hlt
    · subst heq
      obtain rfl := Option.some.inj ht
      refine .inr ⟨old, hu, hid, hplacement, .launched ?_ rfl hstatus hcontrol⟩
      exact hnow.imp And.left And.left
    · refine .inr ⟨task', ht, rfl, rfl, .steady (fun v hv hvt ↦ ?_) (.refl _)⟩
      rcases hnow with ⟨-, rfl⟩ | ⟨-, rfl⟩
      · exact (List.mem_cons.mp hv).resolve_left fun hvu ↦ heq (hvu.symm.trans hvt)
      · exact (List.mem_cons.mp hv).resolve_left fun hvu ↦ heq (hvu.symm.trans hvt)
  | ends ht' hstage hstatus hnow hheap htasks hqueue hnotes hquiet hlog =>
    refine .inr (hsteady hheap ?_)
    rcases hnow with ⟨-, -, rfl⟩ | ⟨-, -, rfl⟩
    · exact List.Subset.refl _
    · exact List.Subset.refl _
  | @settles _ u status exit ok old new note hu hstage hheap hid hplacement hcontrol hstatus htasks
      hqueue hnotes hsubject hkind hlog =>
    rw [hheap, List.getElem?_set] at ht
    split_ifs at ht with heq hlt
    · subst heq
      obtain rfl := Option.some.inj ht
      exact .inr ⟨old, hu, hid, hplacement,
        .settled status exit ok rfl rfl rfl hstage hstatus hcontrol⟩
    · exact .inr ⟨task', ht, rfl, rfl, .steady (fun v hv _ ↦ hv) (.refl _)⟩
  | completes hnow hheap htasks hqueue hnotes hlog =>
    exact .inr (hsteady (hheap ▸ AllSteady.refl _) (List.Subset.refl _))
  | skips hqueue hgone hheap htasks hnotes hlog =>
    exact .inr (hsteady (hheap ▸ AllSteady.refl _) (List.Subset.refl _))
  | admits hqueue ht' htask hstatus hfree hheap htasks hnotes hlog =>
    exact .inr (hsteady (hheap ▸ AllSteady.refl _) (List.Subset.refl _))
  | @started _ under _ u hnow hheap htasks hqueue hnotes hlog =>
    have hunder : startings under = startings under' := by
      rcases hnow with ⟨-, rfl⟩ | ⟨-, rfl⟩ <;> rfl
    rw [hheap, List.getElem?_modify] at ht
    obtain ⟨old, hold, rfl⟩ := Option.map_eq_some_iff.mp ht
    split_ifs with heq
    · subst heq
      exact .inr ⟨old, hold, rfl, rfl, .started (congrArg (u :: ·) hunder) rfl rfl⟩
    · exact .inr ⟨old, hold, rfl, rfl,
        .steady (fun v hv _ ↦ List.mem_cons_of_mem _ (hunder ▸ hv)) (.refl _)⟩

theorem startings_of_turn (h : Turn σ σ' now under now' under') :
    startings under' = startings under ∨ ∃ t, startings under = t :: startings under' := by
  cases h with
  | refused t => exact .inr ⟨t, rfl⟩
  | dropped t => exact .inr ⟨t, rfl⟩
  | _ => exact .inl rfl

/-- A move puts at most one call of `runner.start` on top or takes one away. -/
theorem Happens.startings (h : Happens ids σ σ' now under now' under') :
    startings under' = startings under ∨ (∃ t, startings under = t :: startings under') ∨
      ∃ t task, (now = .launching t ∨ now = .admitting t) ∧ σ.heap[t]? = some task ∧
        startings under' = t :: startings under := by
  cases h with
  | turns hheap htasks hqueue hnotes hquiet hlog hturn =>
    exact (startings_of_turn hturn).imp_right .inl
  | @launches _ _ _ t task _ hnow ht =>
    rcases hnow with ⟨rfl, rfl⟩ | ⟨rfl, rfl⟩
    · exact .inr (.inr ⟨t, task, .inl rfl, ht, rfl⟩)
    · exact .inr (.inr ⟨t, task, .inr rfl, ht, rfl⟩)
  | ends ht hstage hstatus hnow =>
    rcases hnow with ⟨-, -, rfl⟩ | ⟨-, -, rfl⟩ <;> exact .inl rfl
  | started hnow =>
    rcases hnow with ⟨-, rfl⟩ | ⟨-, rfl⟩ <;> exact .inr (.inl ⟨_, rfl⟩)
  | _ => exact .inl rfl

theorem Happens.length_le (h : Happens ids σ σ' now under now' under') :
    σ.heap.length ≤ σ'.heap.length := by
  cases h with
  | turns hheap => exact hheap.length_eq.le
  | enters hheap => rw [hheap, List.length_append]; exact Nat.le_add_right _ _
  | queues _ _ _ hheap => rw [hheap]
  | launches _ _ hheap => rw [hheap, List.length_set]
  | ends _ _ _ _ hheap => exact hheap.length_eq.le
  | settles _ _ hheap => rw [hheap, List.length_set]
  | completes _ hheap => rw [hheap]
  | skips _ _ hheap => rw [hheap]
  | admits _ _ _ _ _ hheap => rw [hheap]
  | started _ hheap => rw [hheap, List.length_modify]

/-- The task that is about to be launched, or put in the queue. -/
def Now.pending : Now → Option ℕ
  | .recording t | .placing t | .launching t | .admitting t => some t
  | _ => none

/-- A task comes to be launched because it was just made, or because it was queued. -/
theorem Happens.pends (h : Happens ids σ σ' now under now' under')
    (hpends : now'.pending = some t) : now.pending = some t ∨ now' = .recording t ∨
      ∃ id rest task, σ.manager.queue = id :: rest ∧ σ.manager.tasks.lookup id = some t ∧
        σ.heap[t]? = some task ∧ task.status = .queued ∧ now' = .admitting t := by
  cases h with
  | turns _ _ _ _ _ _ hturn =>
    cases hturn with
    | stay => exact .inl hpends
    | recorded t => exact .inl hpends
    | places t => exact .inl hpends
    | _ => cases hpends
  | enters => exact .inr (.inl (congrArg Now.recording (Option.some.inj hpends)))
  | ends _ _ _ hnow =>
    rcases hnow with ⟨-, rfl, -⟩ | ⟨-, rfl, -⟩ <;> cases hpends
  | completes hnow => rcases hnow with rfl | rfl <;> cases hpends
  | admits hqueue ht htask hstatus =>
    cases hpends
    exact .inr (.inr ⟨_, _, _, hqueue, ht, htask, hstatus, rfl⟩)
  | started hnow => rcases hnow with ⟨rfl, -⟩ | ⟨rfl, -⟩ <;> cases hpends
  | _ => cases hpends

/-! ## Launching -/

/-- While the runner is called to start a task, the task is out of the queue and has no control. -/
structure Session.Launching (σ : Session) (now : Now) (under : List Frame) : Prop where
  pending : ∀ (t : ℕ) (task : TaskRecord), now.pending = some t → σ.heap[t]? = some task →
    task.status = .queued
  queued : ∀ (t : ℕ) (task : TaskRecord), σ.heap[t]? = some task → task.status = .queued →
    task.hasControl = false
  starting : ∀ (t : ℕ) (task : TaskRecord), t ∈ startings under → σ.heap[t]? = some task →
    task.status ≠ .queued ∧ task.hasControl = false
  known : ∀ t ∈ startings under, t < σ.heap.length
  nodup : (startings under).Nodup

theorem Steady.queued_iff (h : Steady task task') :
    task'.status = .queued ↔ task.status = .queued := by
  rw [← stage_eq_waiting, ← stage_eq_waiting, h.stage]

theorem Session.Launching.step (hl : σ.Launching now under) (hshape : σ.Shape now under)
    (h : Happens ids σ σ' now under now' under') : σ'.Launching now' under' := by
  refine ⟨fun t task' hpends ht ↦ ?_, fun t task' ht hqueued ↦ ?_, fun t task' hin ht ↦ ?_,
    fun t hin ↦ ?_, ?_⟩
  · rcases h.record ht with ⟨-, -, hqueued, -, -⟩ | ⟨task, htask, -, -, hchanges⟩
    · exact hqueued
    · have hold : now' = .idle ∨ (∃ ok, now' = .completing t ok) ∨ task.status = .queued := by
        rcases h.pends hpends with hpends | hrecording | ⟨-, -, old, -, -, hold, hqueued, -⟩
        · exact .inr (.inr (hl.pending t task hpends htask))
        · cases h with
          | enters =>
            cases hrecording
            rw [List.getElem?_eq_none le_rfl] at htask
            cases htask
          | turns _ _ _ _ _ _ hturn =>
            cases hturn with
            | stay => exact .inr (.inr (hl.pending t task (hrecording ▸ rfl) htask))
            | _ => cases hrecording
          | ends _ _ _ hnow =>
            rcases hnow with ⟨-, rfl, -⟩ | ⟨-, rfl, -⟩ <;> cases hrecording
          | completes hnow => rcases hnow with rfl | rfl <;> cases hrecording
          | started hnow => rcases hnow with ⟨rfl, -⟩ | ⟨rfl, -⟩ <;> cases hrecording
          | _ => cases hrecording
        · rw [htask] at hold
          rw [Option.some.inj hold]
          exact .inr (.inr hqueued)
      rcases hold with rfl | ⟨ok, rfl⟩ | hold
      · cases hpends
      · cases hpends
      · cases hchanges with
        | steady _ hs => exact hs.queued_iff.mpr hold
        | launched _ hnow' =>
          subst hnow'
          cases hpends
        | settled status exit ok _ hnow' =>
          subst hnow'
          cases hpends
        | started _ hstatus => rw [hstatus, hold]
  · rcases h.record ht with ⟨-, -, -, hcontrol, -⟩ | ⟨task, htask, -, -, hchanges⟩
    · exact hcontrol
    · cases hchanges with
      | steady _ hs =>
        rw [hs.hasControl]
        exact hl.queued t task htask (hs.queued_iff.mp hqueued)
      | launched _ _ hstatus =>
        rw [hstatus] at hqueued
        cases hqueued
      | settled _ _ _ _ _ _ _ _ hcontrol => exact hcontrol
      | started hunder hstatus =>
        rw [hstatus] at hqueued
        exact absurd hqueued (hl.starting t task (hunder ▸ List.mem_cons_self) htask).1
  · rcases h.record ht with ⟨-, hlength, -, -, rfl⟩ | ⟨task, htask, -, -, hchanges⟩
    · exact absurd hlength (hl.known t hin).ne
    · cases hchanges with
      | steady hstarting hs =>
        have hold := hl.starting t task (hstarting t hin rfl) htask
        exact ⟨mt hs.queued_iff.mp hold.1, hs.hasControl.trans hold.2⟩
      | launched hnow _ hstatus hcontrol =>
        have hqueued : task.status = .queued := by
          refine hl.pending t task ?_ htask
          rcases hnow with rfl | rfl <;> rfl
        refine ⟨?_, hcontrol.trans (hl.queued t task htask hqueued)⟩
        rw [hstatus]
        decide
      | settled status exit _ hnow _ hunder _ hstatus hcontrol =>
        refine ⟨?_, hcontrol⟩
        rw [hstatus]
        exact ne_queued_of_settled (hshape.settling t status exit hnow)
      | started hunder =>
        have hnodup := hl.nodup
        rw [hunder] at hnodup
        exact absurd hin (List.nodup_cons.mp hnodup).1
  · refine lt_of_lt_of_le ?_ h.length_le
    rcases h.startings with heq | ⟨u, heq⟩ | ⟨u, task, -, hu, heq⟩
    · exact hl.known t (heq ▸ hin)
    · exact hl.known t (heq ▸ List.mem_cons_of_mem _ hin)
    · rw [heq] at hin
      rcases List.mem_cons.mp hin with rfl | hin
      · exact (List.getElem?_eq_some_iff.mp hu).1
      · exact hl.known t hin
  · have hnodup := hl.nodup
    rcases h.startings with heq | ⟨u, heq⟩ | ⟨u, task, hnow, hu, heq⟩
    · exact heq ▸ hnodup
    · rw [heq] at hnodup
      exact (List.nodup_cons.mp hnodup).2
    · rw [heq]
      refine List.nodup_cons.mpr ⟨fun hin ↦ (hl.starting u task hin hu).1 ?_, hnodup⟩
      refine hl.pending u task ?_ hu
      rcases hnow with rfl | rfl <;> rfl

/-! ## Keys -/

/-- The map has every task under its id. -/
structure Session.Keyed (ids : IdSource) (σ : Session) : Prop where
  tasks : σ.manager.tasks = (σ.heap.map TaskRecord.id).zipIdx
  drawn : ∀ task ∈ σ.heap, ∃ k < σ.drawn, task.id = ids.next k "bgt"
  nodup : (σ.heap.map TaskRecord.id).Nodup

theorem assign_of_not_mem {α β : Type} [DecidableEq α] {k : α} {xs : List (α × β)} (v : β)
    (h : k ∉ xs.map Prod.fst) : assign k v xs = xs ++ [(k, v)] := by
  induction xs with
  | nil => rfl
  | cons x xs ih =>
    rw [List.map_cons, List.mem_cons, not_or] at h
    rw [assign, if_neg (Ne.symm h.1), ih h.2, List.cons_append]

/-- A move makes a task or keeps those that are there. -/
theorem Happens.keys (h : Happens ids σ σ' now under now' under') :
    σ'.heap.map TaskRecord.id = σ.heap.map TaskRecord.id ∧ σ'.manager.tasks = σ.manager.tasks ∨
      ∃ task, σ'.heap = σ.heap ++ [task] ∧ task.id = ids.next σ.drawn "bgt" ∧
        σ.drawn < σ'.drawn ∧ σ'.manager.tasks = assign task.id σ.heap.length σ.manager.tasks := by
  have hset : ∀ {t : ℕ} {task task' : TaskRecord}, σ.heap[t]? = some task → task'.id = task.id →
      (σ.heap.set t task').map TaskRecord.id = σ.heap.map TaskRecord.id := by
    intro t task task' ht hid
    obtain ⟨hlt, rfl⟩ := List.getElem?_eq_some_iff.mp ht
    rw [List.map_set, hid]
    exact List.ext_getElem (by simp) fun i hi _ ↦ by
      rw [List.getElem_set]
      split_ifs with heq
      · simp only [heq, List.getElem_map]
      · rfl
  cases h with
  | turns hheap htasks => exact .inl ⟨hheap.ids, htasks⟩
  | enters hheap hstatus hcontrol hid hdrawn htasks =>
    exact .inr ⟨_, hheap, hid, hdrawn, htasks⟩
  | queues _ _ _ hheap htasks => exact .inl ⟨by rw [hheap], htasks⟩
  | launches _ ht hheap hid _ _ _ htasks => exact .inl ⟨hheap ▸ hset ht hid, htasks⟩
  | ends _ _ _ _ hheap htasks => exact .inl ⟨hheap.ids, htasks⟩
  | settles ht _ hheap hid _ _ _ htasks => exact .inl ⟨hheap ▸ hset ht hid, htasks⟩
  | completes _ hheap htasks => exact .inl ⟨by rw [hheap], htasks⟩
  | skips _ _ hheap htasks => exact .inl ⟨by rw [hheap], htasks⟩
  | admits _ _ _ _ _ hheap htasks => exact .inl ⟨by rw [hheap], htasks⟩
  | @started _ _ _ t _ hheap htasks =>
    refine .inl ⟨?_, htasks⟩
    rw [hheap]
    cases ht : σ.heap[t]? with
    | none => rw [modify_of_none ht]
    | some task =>
      rw [modify_eq_set ht]
      exact hset ht rfl

theorem Session.Keyed.step (hk : σ.Keyed ids) (h : Happens ids σ σ' now under now' under')
    (hdrawn : σ.drawn ≤ σ'.drawn) : σ'.Keyed ids := by
  rcases h.keys with ⟨hids, htasks⟩ | ⟨task, hheap, hid, hlt, htasks⟩
  · refine ⟨by rw [htasks, hids, hk.tasks], fun task' ht ↦ ?_, hids ▸ hk.nodup⟩
    have hmem : task'.id ∈ σ.heap.map TaskRecord.id := hids ▸ List.mem_map_of_mem ht
    obtain ⟨task, htask, hid⟩ := List.mem_map.mp hmem
    obtain ⟨k, hk, hnext⟩ := hk.drawn task htask
    exact ⟨k, hk.trans_le hdrawn, hid.symm.trans hnext⟩
  · -- The id of the new task was not drawn before.
    have hfresh : task.id ∉ σ.heap.map TaskRecord.id := by
      rw [List.mem_map]
      rintro ⟨old, hold, heq⟩
      obtain ⟨k, hk, hnext⟩ := hk.drawn old hold
      exact hk.ne (ids.fresh "bgt" (hnext.symm.trans (heq.trans hid)))
    refine ⟨?_, ?_, ?_⟩
    · rw [htasks, hk.tasks, assign_of_not_mem _ (by rwa [List.zipIdx_map_fst]), hheap,
        List.map_append, List.zipIdx_append, List.length_map, Nat.zero_add]
      rfl
    · rw [hheap]
      intro task' ht
      rcases List.mem_append.mp ht with ht | ht
      · obtain ⟨k, hk, hnext⟩ := hk.drawn task' ht
        exact ⟨k, hk.trans_le hdrawn, hnext⟩
      · rw [List.mem_singleton.mp ht]
        exact ⟨σ.drawn, hlt, hid⟩
    · rw [hheap, List.map_append]
      exact hk.nodup.append (List.nodup_singleton _) (List.disjoint_singleton.mpr hfresh)

theorem Session.Keyed.lookup_iff (hk : σ.Keyed ids) {id : String} :
    σ.manager.tasks.lookup id = some t ↔ ∃ task, σ.heap[t]? = some task ∧ task.id = id := by
  rw [← Assoc.mem_iff_lookup, hk.tasks, List.mem_zipIdx_iff_getElem?, List.getElem?_map,
    Option.map_eq_some_iff]
  rw [hk.tasks, List.zipIdx_map_fst]
  exact hk.nodup

theorem Session.Keyed.eq_of_id (hk : σ.Keyed ids) {u : ℕ} {other : TaskRecord}
    (ht : σ.heap[t]? = some task) (hu : σ.heap[u]? = some other) (hid : task.id = other.id) :
    t = u := by
  have hlookup := (hk.lookup_iff.mpr ⟨task, ht, rfl⟩).symm.trans
    (hid ▸ hk.lookup_iff.mpr ⟨other, hu, rfl⟩)
  exact Option.some.inj hlookup

/-- The slots that the manager counts. -/
theorem Session.Keyed.foregroundRunning_eq (hk : σ.Keyed ids) :
    σ.manager.foregroundRunning σ.heap = running σ.heap := by
  have hactive : ∀ task : TaskRecord,
      (decide (task.placement = .foreground) && !isTerminalStatus task.status &&
        decide (task.status ≠ .queued)) =
      (decide (task.placement = .foreground) && decide (task.status.stage = .active)) := by
    intro task
    cases task.status <;> cases task.placement <;> rfl
  have hrange : σ.heap.map some = (List.range σ.heap.length).map (σ.heap[·]?) := by
    refine List.ext_getElem (by simp) fun i hi hi' ↦ ?_
    rw [List.getElem_map, List.getElem_map, List.getElem_range]
    exact (List.getElem?_eq_getElem _).symm
  have hcount : ∀ p : Option TaskRecord → Bool,
      (σ.heap.map TaskRecord.id).zipIdx.countP (fun entry ↦ p σ.heap[entry.2]?) =
        σ.heap.countP fun task ↦ p (some task) := by
    intro p
    have hsnd : ((σ.heap.map TaskRecord.id).zipIdx.map Prod.snd).map (σ.heap[·]?) =
        σ.heap.map some := by
      rw [List.zipIdx_map_snd, List.length_map, ← List.range_eq_range', hrange]
    have hp := congrArg (List.countP p) hsnd
    rw [List.countP_map, List.countP_map, List.countP_map] at hp
    exact hp
  have hany : σ.manager.foregroundRunning σ.heap = σ.manager.tasks.countP fun entry ↦
      (σ.heap[entry.2]?).any fun task ↦
        decide (task.placement = .foreground) && decide (task.status.stage = .active) := by
    rw [Manager.foregroundRunning]
    refine List.countP_congr fun entry _ ↦ ?_
    cases σ.heap[entry.2]? with
    | none => exact Iff.rfl
    | some task =>
      dsimp only
      rw [hactive]
      exact Iff.rfl
  rw [hany, hk.tasks]
  exact hcount fun found ↦ found.any fun task ↦
    decide (task.placement = .foreground) && decide (task.status.stage = .active)

/-! ## Slots -/

/-- The task holds a slot of the foreground. -/
def TaskRecord.holdsSlot (task : TaskRecord) : Bool :=
  decide (task.placement = .foreground) && decide (task.status.stage = .active)

theorem running_set (ht : σ.heap[t]? = some task) :
    running (σ.heap.set t task') + (if task.holdsSlot then 1 else 0) =
      running σ.heap + if task'.holdsSlot then 1 else 0 := by
  obtain ⟨hlt, hget⟩ := List.getElem?_eq_some_iff.mp ht
  have hle : (if task.holdsSlot then 1 else 0) ≤ σ.heap.countP TaskRecord.holdsSlot := by
    split_ifs with hslot
    · exact List.countP_pos_iff.mpr ⟨task, List.mem_of_getElem? ht, hslot⟩
    · exact Nat.zero_le _
  have hset : (σ.heap.set t task').countP TaskRecord.holdsSlot =
      σ.heap.countP TaskRecord.holdsSlot - (if task.holdsSlot then 1 else 0) +
        if task'.holdsSlot then 1 else 0 := by
    rw [List.countP_set hlt, hget]
  change (σ.heap.set t task').countP TaskRecord.holdsSlot + _ =
    σ.heap.countP TaskRecord.holdsSlot + _
  omega

theorem holdsSlot_of_queued (h : task.status = .queued) : task.holdsSlot = false := by
  rw [TaskRecord.holdsSlot, h]
  exact Bool.and_false _

theorem running_append (h : task.status = .queued) :
    running (σ.heap ++ [task]) = running σ.heap := by
  change (σ.heap ++ [task]).countP TaskRecord.holdsSlot = σ.heap.countP TaskRecord.holdsSlot
  rw [List.countP_append, List.countP_singleton, holdsSlot_of_queued h]
  rfl

theorem holdsSlot_of_terminal (h : isTerminalStatus task.status = true) :
    task.holdsSlot = false := by
  rw [TaskRecord.holdsSlot, stage_eq_settled.mpr h]
  exact Bool.and_false _

/-- How many slots may be free while tasks are queued: one that is just given on. -/
def Now.slack (heap : Heap) : Now → ℕ
  | .completing t _ | .reporting t _ | .concluding t =>
    if (heap[t]?).any fun task ↦ decide (task.placement = .foreground) then 1 else 0
  | .next | .admitting _ => 1
  | _ => 0

theorem slack_le_one (heap : Heap) (now : Now) : now.slack heap ≤ 1 := by
  have hite : ∀ b : Bool, (if b then 1 else 0) ≤ 1 := by decide
  cases now with
  | next => exact le_rfl
  | admitting t => exact le_rfl
  | completing t ok => exact hite _
  | reporting t ok => exact hite _
  | concluding t => exact hite _
  | _ => exact Nat.zero_le _

theorem any_foreground_eq (h : AllSteady σ.heap σ'.heap) (t : ℕ) :
    ((σ'.heap[t]?).any fun task ↦ decide (task.placement = .foreground)) =
      (σ.heap[t]?).any fun task ↦ decide (task.placement = .foreground) := by
  cases ht : σ'.heap[t]? with
  | none =>
    have hlen := h.length_eq
    rw [List.getElem?_eq_none (hlen ▸ List.getElem?_eq_none_iff.mp ht)]
  | some task' =>
    obtain ⟨task, htask, hs⟩ := h.get? ht
    rw [htask, Option.any_some, Option.any_some, hs.placement]

theorem slack_eq (h : AllSteady σ.heap σ'.heap) (now : Now) :
    now.slack σ'.heap = now.slack σ.heap := by
  cases now with
  | completing t ok => rw [Now.slack, any_foreground_eq h, Now.slack]
  | reporting t ok => rw [Now.slack, any_foreground_eq h, Now.slack]
  | concluding t => rw [Now.slack, any_foreground_eq h, Now.slack]
  | _ => rfl

/-- While tasks are queued, the slots are taken. -/
structure Session.Admitting (σ : Session) (now : Now) : Prop where
  foreground : ∀ id ∈ σ.manager.queue, ∃ (t : ℕ) (task : TaskRecord), σ.heap[t]? = some task ∧
    task.id = id ∧ task.placement = .foreground
  admitting : ∀ (t : ℕ) (task : TaskRecord), now = .admitting t → σ.heap[t]? = some task →
    task.placement = .foreground
  waits : ∀ (t : ℕ) (task : TaskRecord), σ.heap[t]? = some task → task.status = .queued →
    now.pending = some t ∨ task.id ∈ σ.manager.queue
  slots : ∀ (t : ℕ) (task : TaskRecord), σ.heap[t]? = some task → task.status = .queued →
    task.id ∈ σ.manager.queue → σ.manager.limit ≤ running σ.heap + now.slack σ.heap

theorem slots_turn (hk : σ.Keyed ids) (hne : σ.manager.queue ≠ [])
    (hheap : AllSteady σ.heap σ'.heap) (h : Turn σ σ' now under now' under')
    (hslots : σ.manager.limit ≤ running σ.heap + now.slack σ.heap) :
    σ.manager.limit ≤ running σ'.heap + now'.slack σ'.heap := by
  rw [hheap.running, slack_eq hheap]
  cases h with
  | frees t => exact hslots.trans (Nat.add_le_add_left (slack_le_one _ _) _)
  | concluded t hwaiters hplacement =>
    have hzero : (Now.concluding t).slack σ.heap = 0 := by
      rw [Now.slack]
      cases ht : σ.heap[t]? with
      | none => rfl
      | some task =>
        rw [Option.any_some, decide_eq_false (hplacement task ht)]
        rfl
    rwa [hzero] at hslots
  | rests hrests =>
    rw [← hk.foregroundRunning_eq]
    exact hrests.resolve_left hne
  | _ => exact hslots

/-- **Slots.** A move leaves no more slots free than may be. -/
theorem Happens.slots (h : Happens ids σ σ' now under now' under') (hk : σ.Keyed ids)
    (hl : σ.Launching now under) (ha : σ.Admitting now) (hshape : σ.Shape now under)
    (hne : σ.manager.queue ≠ [])
    (hslots : σ.manager.limit ≤ running σ.heap + now.slack σ.heap) :
    σ.manager.limit ≤ running σ'.heap + now'.slack σ'.heap := by
  cases h with
  | turns hheap _ _ _ _ _ hturn => exact slots_turn hk hne hheap hturn hslots
  | enters hheap hstatus =>
    rw [hheap, running_append hstatus]
    exact hslots
  | queues _ _ _ hheap => rwa [hheap]
  | @launches _ _ _ t task task' hnow ht hheap _ hplacement _ hstatus =>
    have hqueued : task.status = .queued := by
      refine hl.pending t task ?_ ht
      rcases hnow with ⟨rfl, -⟩ | ⟨rfl, -⟩ <;> rfl
    have hset := @running_set σ t task task' ht
    rw [holdsSlot_of_queued hqueued] at hset
    rw [hheap]
    rcases hnow with ⟨rfl, -⟩ | ⟨rfl, -⟩
    · exact hslots.trans (hset ▸ Nat.le_add_right _ _)
    · have hholds : task'.holdsSlot = true := by
        rw [TaskRecord.holdsSlot, hplacement, ha.admitting t task rfl ht, hstatus]
        rfl
      rw [hholds] at hset
      exact hslots.trans hset.ge
  | ends _ _ _ hnow hheap =>
    rw [hheap.running]
    rcases hnow with ⟨-, rfl, -⟩ | ⟨-, rfl, -⟩ <;> exact hslots
  | @settles _ t status exit ok task task' note ht hstage hheap _ hplacement _ hstatus =>
    have hset := @running_set σ t task task' ht
    have hterminal : task'.holdsSlot = false := by
      refine holdsSlot_of_terminal ?_
      rw [hstatus]
      exact hshape.settling t status exit rfl
    have hslack : (Now.completing t ok).slack σ'.heap =
        if task.placement = .foreground then 1 else 0 := by
      rw [Now.slack, hheap, List.getElem?_set_self (List.getElem?_eq_some_iff.mp ht).1,
        Option.any_some, hplacement]
      simp
    have hle : (if task.holdsSlot then 1 else 0) ≤
        if task.placement = .foreground then 1 else 0 := by
      by_cases hp : task.placement = .foreground
      · rw [if_pos hp]
        split_ifs <;> decide
      · rw [TaskRecord.holdsSlot, decide_eq_false hp]
        exact Nat.zero_le _
    rw [hslack, hheap]
    rw [hterminal] at hset
    simp only [Now.slack, Bool.false_eq_true, if_false] at hslots hset
    omega
  | completes hnow hheap =>
    rw [hheap]
    rcases hnow with rfl | rfl <;> exact hslots
  | skips _ _ hheap => rwa [hheap]
  | admits _ _ _ _ _ hheap => rwa [hheap]
  | @started _ _ _ t _ hheap =>
    have hsame : running σ'.heap = running σ.heap := by
      rw [hheap]
      cases ht : σ.heap[t]? with
      | none => rw [modify_of_none ht]
      | some task =>
        rw [modify_eq_set ht]
        have hset := @running_set σ t task { task with hasControl := true } ht
        exact Nat.add_right_cancel hset
    rw [hsame]
    exact hslots.trans (Nat.le_add_right _ _)

/-- A record keeps its id and its placement. -/
theorem Happens.kept (h : Happens ids σ σ' now under now' under') (ht : σ.heap[t]? = some task) :
    ∃ task', σ'.heap[t]? = some task' ∧ task'.id = task.id ∧ task'.placement = task.placement := by
  have hlt : t < σ.heap.length := (List.getElem?_eq_some_iff.mp ht).1
  have ht' : σ'.heap[t]? = some (σ'.heap.get ⟨t, hlt.trans_le h.length_le⟩) :=
    List.getElem?_eq_getElem _
  rcases h.record ht' with ⟨-, hlength, -, -, -⟩ | ⟨old, hold, hid, hplacement, -⟩
  · exact absurd hlength hlt.ne
  · rw [ht] at hold
    obtain rfl := Option.some.inj hold
    exact ⟨_, ht', hid, hplacement⟩

/-- A queued task was queued before, or has just been made. -/
theorem Happens.queued_before (h : Happens ids σ σ' now under now' under')
    (hshape : σ.Shape now under) (ht : σ'.heap[t]? = some task')
    (hqueued : task'.status = .queued) : now' = .recording t ∧ t = σ.heap.length ∨
      ∃ task, σ.heap[t]? = some task ∧ task'.id = task.id ∧ task.status = .queued := by
  rcases h.record ht with ⟨hnow', hlength, -, -, -⟩ | ⟨task, htask, hid, -, hchanges⟩
  · exact .inl ⟨hnow', hlength⟩
  · refine .inr ⟨task, htask, hid, ?_⟩
    cases hchanges with
    | steady _ hs => exact hs.queued_iff.mp hqueued
    | launched _ _ hstatus =>
      rw [hstatus] at hqueued
      cases hqueued
    | settled status exit _ hnow _ _ _ hstatus =>
      rw [hstatus] at hqueued
      exact absurd hqueued (ne_queued_of_settled (hshape.settling t status exit hnow))
    | started _ hstatus => rw [← hstatus, hqueued]

/-- What a move does to the queue. -/
theorem Happens.queue_cases (h : Happens ids σ σ' now under now' under') :
    σ'.manager.queue = σ.manager.queue ∨
    (∃ t task, σ.heap[t]? = some task ∧ task.placement = .foreground ∧ now = .placing t ∧
      now' = .idle ∧ σ'.heap = σ.heap ∧ σ'.manager.queue = σ.manager.queue ++ [task.id] ∧
      σ.manager.limit ≤ σ.manager.foregroundRunning σ.heap) ∨
    ∃ id, σ.manager.queue = id :: σ'.manager.queue ∧ σ'.heap = σ.heap ∧ now = .next ∧
      (now' = .next ∧ (∀ (t : ℕ) (task : TaskRecord), σ.manager.tasks.lookup id = some t →
        σ.heap[t]? = some task → task.status ≠ .queued) ∨
      ∃ t, σ.manager.tasks.lookup id = some t ∧ now' = .admitting t) := by
  cases h with
  | turns _ _ hqueue => exact .inl hqueue
  | enters _ _ _ _ _ _ hqueue => exact .inl hqueue
  | queues ht hplacement hfull hheap _ hqueue =>
    exact .inr (.inl ⟨_, _, ht, hplacement, rfl, rfl, hheap, hqueue, hfull⟩)
  | launches _ _ _ _ _ _ _ _ hqueue => exact .inl hqueue
  | ends _ _ _ _ _ _ hqueue => exact .inl hqueue
  | settles _ _ _ _ _ _ _ _ hqueue => exact .inl hqueue
  | completes _ _ _ hqueue => exact .inl hqueue
  | skips hqueue hgone hheap => exact .inr (.inr ⟨_, hqueue, hheap, rfl, .inl ⟨rfl, hgone⟩⟩)
  | admits hqueue ht _ _ _ hheap => exact .inr (.inr ⟨_, hqueue, hheap, rfl, .inr ⟨_, ht, rfl⟩⟩)
  | started _ _ _ hqueue => exact .inl hqueue

/-- What becomes of a task that is about to be launched. -/
theorem Happens.pending_step (h : Happens ids σ σ' now under now' under')
    (hpending : now.pending = some t) (ht : σ'.heap[t]? = some task')
    (hqueued : task'.status = .queued) :
    now'.pending = some t ∨ task'.id ∈ σ'.manager.queue := by
  cases h with
  | turns _ _ _ _ _ _ hturn =>
    cases hturn with
    | stay => exact .inl hpending
    | recorded t => exact .inl hpending
    | places t => exact .inl hpending
    | _ => cases hpending
  | @queues _ u task hu hplacement hfull hheap htasks hqueue =>
    obtain rfl : u = t := Option.some.inj hpending
    rw [hheap, hu] at ht
    refine .inr ?_
    rw [hqueue, ← Option.some.inj ht]
    exact List.mem_append_right _ (List.mem_singleton_self _)
  | @launches _ _ _ u old new hnow hu hheap _ _ _ hstatus =>
    obtain rfl : u = t := by rcases hnow with ⟨rfl, -⟩ | ⟨rfl, -⟩ <;> exact Option.some.inj hpending
    rw [hheap, List.getElem?_set_self (List.getElem?_eq_some_iff.mp hu).1] at ht
    rw [← Option.some.inj ht, hstatus] at hqueued
    cases hqueued
  | _ => cases hpending

theorem Session.Admitting.step (ha : σ.Admitting now) (hk : σ.Keyed ids) (hk' : σ'.Keyed ids)
    (hl : σ.Launching now under) (hshape : σ.Shape now under)
    (h : Happens ids σ σ' now under now' under')
    (hlimit : σ'.manager.limit = σ.manager.limit) : σ'.Admitting now' := by
  have hold : ∀ id ∈ σ.manager.queue, ∃ (t : ℕ) (task : TaskRecord), σ'.heap[t]? = some task ∧
      t < σ.heap.length ∧ task.id = id ∧ task.placement = .foreground := by
    intro id hid
    obtain ⟨t, task, ht, rfl, hplacement⟩ := ha.foreground id hid
    obtain ⟨task', ht', hid', hplacement'⟩ := h.kept ht
    exact ⟨t, task', ht', (List.getElem?_eq_some_iff.mp ht).1, hid', hplacement'.trans hplacement⟩
  refine ⟨fun id hid ↦ ?_, fun t task' hnow' ht ↦ ?_, fun t task' ht hqueued ↦ ?_,
    fun t task' ht hqueued hin ↦ ?_⟩
  · rcases h.queue_cases with hqueue | ⟨t, task, ht, hplacement, -, -, hheap, hqueue, -⟩ |
      ⟨first, hqueue, -⟩
    · obtain ⟨t, task, ht, -, hrest⟩ := hold id (hqueue ▸ hid)
      exact ⟨t, task, ht, hrest⟩
    · rw [hqueue] at hid
      rcases List.mem_append.mp hid with hid | hid
      · obtain ⟨t, task, ht, -, hrest⟩ := hold id hid
        exact ⟨t, task, ht, hrest⟩
      · exact ⟨t, task, hheap ▸ ht, (List.mem_singleton.mp hid).symm, hplacement⟩
    · obtain ⟨t, task, ht, -, hrest⟩ := hold id (hqueue ▸ List.mem_cons_of_mem _ hid)
      exact ⟨t, task, ht, hrest⟩
  · have hpending' : now'.pending = some t := by rw [hnow']; rfl
    rcases h.pends hpending' with hpending | hnow | ⟨id, rest, task, hqueue, hlookup, -⟩
    · obtain ⟨task, htask, -, hplacement⟩ : ∃ task, σ.heap[t]? = some task ∧
          task'.id = task.id ∧ task'.placement = task.placement := by
        rcases h.record ht with ⟨hrecording, -⟩ | ⟨task, htask, hid, hplacement, -⟩
        · cases hnow'.symm.trans hrecording
        · exact ⟨task, htask, hid, hplacement⟩
      rw [hplacement]
      refine ha.admitting t task ?_ htask
      cases h with
      | turns _ _ _ _ _ _ hturn =>
        cases hturn with
        | stay => exact hnow'
        | _ => cases hnow'
      | launches => cases hnow'
      | queues => cases hnow'
      | _ => cases hpending
    · cases hnow'.symm.trans hnow
    · obtain ⟨u, other, hu, hlt, hid, hplacement⟩ := hold id (hqueue ▸ List.mem_cons_self)
      obtain ⟨task, htask, hid'⟩ := hk.lookup_iff.mp hlookup
      obtain ⟨task'', ht'', hid'', -⟩ := h.kept htask
      rw [ht] at ht''
      obtain rfl := Option.some.inj ht''
      obtain rfl := hk'.eq_of_id ht hu (hid''.trans (hid'.trans hid.symm))
      rw [ht] at hu
      rw [Option.some.inj hu]
      exact hplacement
  · rcases h.queued_before hshape ht hqueued with ⟨rfl, -⟩ | ⟨task, htask, hid, hq⟩
    · exact .inl rfl
    · rcases ha.waits t task htask hq with hpending | hin
      · exact h.pending_step hpending ht hqueued
      · rw [hid]
        rcases h.queue_cases with hqueue | ⟨_, _, -, -, -, -, -, hqueue, -⟩ |
          ⟨first, hqueue, -, -, hcase⟩
        · exact .inr (hqueue ▸ hin)
        · exact .inr (hqueue ▸ List.mem_append_left _ hin)
        · rw [hqueue] at hin
          rcases List.mem_cons.mp hin with hfirst | hin
          · have hlookup : σ.manager.tasks.lookup first = some t :=
              hk.lookup_iff.mpr ⟨task, htask, hfirst⟩
            rcases hcase with ⟨-, hgone⟩ | ⟨u, hu, rfl⟩
            · exact absurd hq (hgone t task hlookup htask)
            · exact .inl (hu.symm.trans hlookup)
          · exact .inr hin
  · rw [hlimit]
    have hslots : task'.id ∈ σ.manager.queue →
        σ.manager.limit ≤ running σ'.heap + now'.slack σ'.heap := by
      intro hin
      rcases h.queued_before hshape ht hqueued with ⟨-, hlength⟩ | ⟨task, htask, hid, hq⟩
      · obtain ⟨u, other, hu, hlt, hid, -⟩ := hold _ hin
        exact absurd (hk'.eq_of_id ht hu hid.symm) (by omega)
      · exact h.slots hk hl ha hshape (List.ne_nil_of_mem hin)
          (ha.slots t task htask hq (hid ▸ hin))
    rcases h.queue_cases with hqueue | ⟨u, other, -, -, -, rfl, hheap, -, hfull⟩ |
      ⟨first, hqueue, -⟩
    · exact hslots (hqueue ▸ hin)
    · rw [hheap, ← hk.foregroundRunning_eq]
      exact hfull.trans (Nat.le_add_right _ _)
    · exact hslots (hqueue ▸ List.mem_cons_of_mem _ hin)

/-! ## Settlement -/

/-- The task whose settlement the manager is in the middle of. -/
def Now.ending : Now → Option ℕ
  | .completing t _ | .reporting t _ | .concluding t => some t
  | _ => none

/-- What has ended was told to all, but for the task that is being settled. -/
structure Session.Told (σ : Session) (now : Now) : Prop where
  noted : ∀ (t : ℕ) (task : TaskRecord), σ.heap[t]? = some task →
    isTerminalStatus task.status = true →
    ∃ n ∈ σ.manager.notifications, n.subjectId = task.id ∧ n.isCompletion = true
  recorded : ∀ (t : ℕ) (task : TaskRecord), σ.heap[t]? = some task →
    isTerminalStatus task.status = true → (∃ ok, now = .completing t ok) ∨ .completes t ∈ σ.log
  waiters : ∀ (t : ℕ) (task : TaskRecord), σ.heap[t]? = some task →
    isTerminalStatus task.status = true → now.ending = some t ∨ task.waiters = 0

theorem Happens.notes (h : Happens ids σ σ' now under now' under') :
    σ.manager.notifications <+: σ'.manager.notifications := by
  cases h with
  | turns _ _ _ hnotes => exact hnotes ▸ List.prefix_append _ _
  | enters _ _ _ _ _ _ _ hnotes => exact hnotes ▸ List.prefix_rfl
  | queues _ _ _ _ _ _ hnotes => exact hnotes ▸ List.prefix_rfl
  | launches _ _ _ _ _ _ _ _ _ hnotes => exact hnotes ▸ List.prefix_rfl
  | ends _ _ _ _ _ _ _ hnotes => exact hnotes ▸ List.prefix_append _ _
  | settles _ _ _ _ _ _ _ _ _ hnotes => exact hnotes ▸ List.prefix_append _ _
  | completes _ _ _ _ hnotes => exact hnotes ▸ List.prefix_rfl
  | skips _ _ _ _ hnotes => exact hnotes ▸ List.prefix_rfl
  | admits _ _ _ _ _ _ _ hnotes => exact hnotes ▸ List.prefix_rfl
  | started _ _ _ _ hnotes => exact hnotes ▸ List.prefix_rfl

theorem Happens.log (h : Happens ids σ σ' now under now' under') : σ.log <+: σ'.log := by
  cases h with
  | turns _ _ _ _ _ hlog => exact hlog ▸ List.prefix_rfl
  | enters _ _ _ _ _ _ _ _ hlog => exact hlog ▸ List.prefix_rfl
  | queues _ _ _ _ _ _ _ hlog => exact hlog ▸ List.prefix_append _ _
  | launches _ _ _ _ _ _ _ _ _ _ hlog => exact hlog ▸ List.prefix_append _ _
  | ends _ _ _ _ _ _ _ _ _ hlog => exact hlog ▸ List.prefix_append _ _
  | settles _ _ _ _ _ _ _ _ _ _ _ _ hlog => exact hlog ▸ List.prefix_rfl
  | completes _ _ _ _ _ hlog => exact hlog ▸ List.prefix_append _ _
  | skips _ _ _ _ _ hlog => exact hlog ▸ List.prefix_rfl
  | admits _ _ _ _ _ _ _ _ hlog => exact hlog ▸ List.prefix_rfl
  | started _ _ _ _ _ hlog => exact hlog ▸ List.prefix_rfl

/-- What is settled by a move is settled before the others are told. -/
theorem Happens.settled_note (h : Happens ids σ σ' now under now' under') {ok : Bool}
    (hnow : now.ending = none) (hnow' : now' = .completing t ok) (ht : σ'.heap[t]? = some task') :
    ∃ n ∈ σ'.manager.notifications, n.subjectId = task'.id ∧ n.isCompletion = true := by
  cases h with
  | @settles _ u status exit ok' old new note hu _ hheap hid _ _ _ _ _ hnotes hsubject hkind =>
    cases hnow'
    rw [hheap, List.getElem?_set_self (List.getElem?_eq_some_iff.mp hu).1] at ht
    refine ⟨note, hnotes ▸ List.mem_append_right _ (List.mem_singleton_self _), ?_, hkind⟩
    rw [hsubject, ← hid, Option.some.inj ht]
  | turns _ _ _ _ _ _ hturn =>
    cases hturn with
    | stay =>
      subst hnow'
      cases hnow
    | _ => cases hnow'
  | ends _ _ _ hnow₁ => rcases hnow₁ with ⟨-, rfl, -⟩ | ⟨-, rfl, -⟩ <;> cases hnow'
  | completes hnow₁ => rcases hnow₁ with rfl | rfl <;> cases hnow'
  | started hnow₁ => rcases hnow₁ with ⟨rfl, -⟩ | ⟨rfl, -⟩ <;> cases hnow'
  | _ => cases hnow'

theorem Happens.recorded_step (h : Happens ids σ σ' now under now' under') {ok : Bool}
    (hnow : now = .completing t ok) :
    (∃ ok, now' = .completing t ok) ∨ .completes t ∈ σ'.log := by
  cases h with
  | turns _ _ _ _ _ _ hturn =>
    cases hturn with
    | stay => exact .inl ⟨ok, hnow⟩
    | _ => cases hnow
  | completes _ _ _ _ _ hlog =>
    cases hnow
    exact .inr (hlog ▸ List.mem_append_right _ (List.mem_singleton_self _))
  | launches hnow₁ => rcases hnow₁ with ⟨rfl, -⟩ | ⟨rfl, -⟩ <;> cases hnow
  | _ => cases hnow

theorem Happens.ending_step (h : Happens ids σ σ' now under now' under')
    (hnow : now.ending = some t) (ht : σ'.heap[t]? = some task') :
    now'.ending = some t ∨ task'.waiters = 0 := by
  cases h with
  | turns _ _ _ _ _ _ hturn =>
    cases hturn with
    | stay => exact .inl hnow
    | reported u => exact .inl hnow
    | frees u hwaiters =>
      cases hnow
      exact .inr (hwaiters task' ht)
    | concluded u hwaiters =>
      cases hnow
      exact .inr (hwaiters task' ht)
    | _ => cases hnow
  | completes hnow₁ => rcases hnow₁ with rfl | rfl <;> exact .inl hnow
  | launches hnow₁ => rcases hnow₁ with ⟨rfl, -⟩ | ⟨rfl, -⟩ <;> cases hnow
  | _ => cases hnow

theorem Steady.terminal_iff (h : Steady task task') :
    isTerminalStatus task'.status = true ↔ isTerminalStatus task.status = true := by
  rw [← stage_eq_settled, ← stage_eq_settled, h.stage]

/-- What has ended had ended before, or is being settled. -/
theorem Happens.terminal_before (h : Happens ids σ σ' now under now' under')
    (ht : σ'.heap[t]? = some task') (hterminal : isTerminalStatus task'.status = true) :
    (now.ending = none ∧ ∃ ok, now' = .completing t ok) ∨
      ∃ task, σ.heap[t]? = some task ∧ task'.id = task.id ∧
        isTerminalStatus task.status = true ∧ task'.waiters ≤ task.waiters := by
  rcases h.record ht with ⟨-, -, hqueued, -, -⟩ | ⟨task, htask, hid, -, hchanges⟩
  · rw [hqueued] at hterminal
    cases hterminal
  · cases hchanges with
    | steady _ hs =>
      have hold := hs.terminal_iff.mp hterminal
      exact .inr ⟨task, htask, hid, hold, hs.waiters (stage_eq_settled.mpr hold)⟩
    | launched _ _ hstatus =>
      rw [hstatus] at hterminal
      cases hterminal
    | settled status exit ok hnow hnow' => exact .inl ⟨hnow ▸ rfl, ok, hnow'⟩
    | started _ hstatus hwaiters =>
      exact .inr ⟨task, htask, hid, hstatus ▸ hterminal, hwaiters.le⟩

theorem Session.Told.step (ht : σ.Told now) (h : Happens ids σ σ' now under now' under') :
    σ'.Told now' := by
  refine ⟨fun t task' htask hterminal ↦ ?_, fun t task' htask hterminal ↦ ?_,
    fun t task' htask hterminal ↦ ?_⟩
  · rcases h.terminal_before htask hterminal with ⟨hnow, ok, hnow'⟩ | ⟨task, hold, hid, hend, -⟩
    · exact h.settled_note hnow hnow' htask
    · obtain ⟨n, hn, hsubject, hkind⟩ := ht.noted t task hold hend
      exact ⟨n, h.notes.subset hn, hsubject.trans hid.symm, hkind⟩
  · rcases h.terminal_before htask hterminal with ⟨-, ok, hnow'⟩ | ⟨task, hold, -, hend, -⟩
    · exact .inl ⟨ok, hnow'⟩
    · rcases ht.recorded t task hold hend with ⟨ok, hnow⟩ | hlog
      · exact h.recorded_step hnow
      · exact .inr (h.log.subset hlog)
  · rcases h.terminal_before htask hterminal with ⟨-, ok, rfl⟩ | ⟨task, hold, -, hend, hle⟩
    · exact .inl rfl
    · rcases ht.waiters t task hold hend with hnow | hzero
      · exact h.ending_step hnow htask
      · exact .inr (Nat.le_zero.mp (hzero ▸ hle))

/-! ## Between the moves -/

/-- All that holds of a session between its moves. -/
structure Session.Sound (ids : IdSource) (σ : Session) (now : Now) (under : List Frame) : Prop where
  shape : σ.Shape now under
  keyed : σ.Keyed ids
  launching : σ.Launching now under
  admitting : σ.Admitting now
  told : σ.Told now

theorem sound_new (ids : IdSource) (ctx : SinkContext) (limit hardStopBytes drawn : ℕ) :
    (Session.new ctx limit hardStopBytes drawn).Sound ids .idle [] := by
  have hnone : ∀ (t : ℕ) (task : TaskRecord), (([] : Heap)[t]? = some task) → False :=
    fun t task h ↦ (by cases h)
  refine ⟨⟨rfl, .nil, ?_, ?_, ?_, ?_, ?_⟩, ⟨rfl, ?_, List.nodup_nil⟩,
    ⟨?_, ?_, ?_, ?_, List.nodup_nil⟩, ⟨?_, ?_, ?_, ?_⟩, ⟨?_, ?_, ?_⟩⟩
  · rintro _ _ _ ⟨⟩
  · rintro _ ⟨⟩
  · rintro _ ⟨⟩
  · rintro _ ⟨⟩
  · rintro _ _ ⟨⟩
  · rintro _ ⟨⟩
  · rintro _ _ ⟨⟩
  · exact fun t task h ↦ (hnone t task h).elim
  · rintro _ _ ⟨⟩
  · rintro _ ⟨⟩
  · rintro _ ⟨⟩
  · rintro _ _ ⟨⟩
  · exact fun t task h ↦ (hnone t task h).elim
  · exact fun t task h ↦ (hnone t task h).elim
  · exact fun t task h ↦ (hnone t task h).elim
  · exact fun t task h ↦ (hnone t task h).elim
  · exact fun t task h ↦ (hnone t task h).elim

theorem drawn_le_step (ids : IdSource) (move : SessionMove) (σ : Session) :
    σ.drawn ≤ (σ.step ids move).drawn := by
  rw [Session.step]
  split_ifs
  · exact Nat.le_succ _
  · exact le_rfl

theorem Session.Sound.step (h : σ.Sound ids now under) (move : SessionMove) :
    ∃ now' under', (σ.step ids move).Sound ids now' under' := by
  obtain ⟨now', under', hstack, hlimit, hnested, hhappens⟩ := h.shape.goes move
  have hkeyed := h.keyed.step hhappens (drawn_le_step ids move σ)
  exact ⟨now', under', h.shape.happens hstack hnested hhappens, hkeyed,
    h.launching.step h.shape hhappens,
    h.admitting.step h.keyed hkeyed h.launching h.shape hhappens hlimit, h.told.step hhappens⟩

theorem Session.Sound.run (h : σ.Sound ids now under) (moves : List SessionMove) :
    ∃ now' under', (σ.run ids moves).Sound ids now' under' := by
  induction moves generalizing σ now under with
  | nil => exact ⟨now, under, h⟩
  | cons move moves ih =>
    obtain ⟨now', under', h'⟩ := h.step move
    exact ih h'

end QwenHarness.Background
