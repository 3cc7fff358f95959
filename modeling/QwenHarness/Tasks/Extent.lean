import QwenHarness.Tasks.Progress

/-!
# Which tasks a change is about

An event moves its own task and adds edges to it, and nothing else. So a step whose events are about
some tasks only leaves every other task where it is, and what that waits for. A completion is about
its task and about those that wait for it.

Edges lead between tasks that are there, in every store that operations lead to.
-/

namespace QwenHarness.Tasks

open TaskDb

/-! ## The edges of an event -/

/-- The edges an event adds. -/
def TaskEventInput.edges (event : TaskEventInput) : List DepEdge :=
  match event.change with
  | .created _ _ _ _ _ blockedBy => blockedBy.map fun b ↦ ⟨b, event.taskId⟩
  | .dependencyAdded blockerId blockedId => [⟨blockerId, blockedId⟩]
  | _ => []

variable {now : ℕ → ℤ} {actor : Actor} {db db' db'' : TaskDb} {id : ℤ} {S : ℤ → Prop}

theorem waits_apply {B : Board ℤ String} (event : TaskEventInput) (a b : ℤ) :
    (B.apply event).waits a b ↔ B.waits a b ∨ ⟨a, b⟩ ∈ event.edges := by
  obtain ⟨taskId, actor, change⟩ := event
  cases change with
  | created subject description activeForm status metadata blockedBy =>
    refine or_congr_right ?_
    simp only [TaskEventInput.edges, List.mem_map, DepEdge.mk.injEq]
    constructor
    · rintro ⟨rfl, ha⟩
      exact ⟨a, ha, rfl, rfl⟩
    · rintro ⟨_, ha, rfl, rfl⟩
      exact ⟨rfl, ha⟩
  | dependencyAdded blockerId blockedId =>
    refine or_congr_right ?_
    rw [TaskEventInput.edges, List.mem_singleton, DepEdge.mk.injEq]
    exact and_comm
  | _ => exact (or_iff_left List.not_mem_nil).symm

/-- Who waits for whom after events. -/
theorem waits_emits {events : List TaskEventInput} (h : Emits now db events db') (a b : ℤ) :
    db'.board.waits a b ↔ db.board.waits a b ∨ ∃ event ∈ events, ⟨a, b⟩ ∈ event.edges := by
  induction h with
  | nil => exact (or_iff_left (by simp)).symm
  | cons h _ ih => rw [ih, board_emit h, waits_apply, List.exists_mem_cons_iff, or_assoc]

theorem waits_single {event : TaskEventInput} (h : Emits now db [event] db') (a b : ℤ) :
    db'.board.waits a b ↔ db.board.waits a b ∨ ⟨a, b⟩ ∈ event.edges := by
  refine (waits_emits h a b).trans (or_congr_right ?_)
  simp only [List.mem_singleton, exists_eq_left]

/-! ## Edges lead between tasks -/

/-- Edges lead between tasks that are there. -/
def Joined (db : TaskDb) : Prop :=
  ∀ a b, db.board.waits a b → db.board.state a ≠ none ∧ db.board.state b ≠ none

theorem joined_empty : Joined TaskDb.empty := by
  intro a b h
  rw [board_empty] at h
  exact h.elim

theorem Joined.emits {events : List TaskEventInput} (hdb : Joined db)
    (h : Emits now db events db')
    (hedges : ∀ event ∈ events, ∀ edge ∈ event.edges,
      db'.board.state edge.blockerId ≠ none ∧ db'.board.state edge.blockedId ≠ none) :
    Joined db' := by
  intro a b hab
  rcases (waits_emits h a b).mp hab with hab | ⟨event, hevent, hedge⟩
  · obtain ⟨ha, hb⟩ := hdb a b hab
    exact ⟨h.state_ne_none ha, h.state_ne_none hb⟩
  · exact hedges event hevent _ hedge

theorem Joined.plain {event : TaskEventInput} (hdb : Joined db) (h : Emits now db [event] db')
    (hedges : event.edges = []) : Joined db' := by
  refine hdb.emits h fun e he edge hedge ↦ ?_
  rw [List.mem_singleton.mp he, hedges] at hedge
  cases hedge

theorem Joined.flips {ids : List ℤ} (hdb : Joined db)
    (h : Emits now db (TaskGraph.flips actor ids) db') : Joined db' := by
  refine hdb.emits h fun e he edge hedge ↦ ?_
  obtain ⟨a, -, rfl⟩ := List.mem_map.mp he
  cases hedge

/-- The board after one event was projected. -/
theorem TaskDb.Emits.board_single {event : TaskEventInput} (h : Emits now db [event] db') :
    db'.board = db.board.apply event := by
  rw [h.board, List.foldl_cons, List.foldl_nil]

theorem state_ne_none_of_getTask {t : StoredTask} (h : db.getTask id = some t) :
    db.board.state id ≠ none := by
  rw [state_of_getTask h]
  exact Option.some_ne_none _

namespace TaskGraph

variable {task : Task} {records : List TaskEventRecord}

theorem joined_create {input : CreateTaskInput} (hdb : Joined db)
    (h : create now actor db input = (.ok (task, records), db')) : Joined db' := by
  obtain ⟨parsed, -, hrefs, -, -, hemits⟩ := create_ok h
  have hnext : Joined { db with nextId := db.nextId + 1 } := hdb
  refine hnext.emits hemits fun event hevent edge hedge ↦ ?_
  obtain rfl := List.mem_singleton.mp hevent
  obtain ⟨b, hb, rfl⟩ := List.mem_map.mp hedge
  obtain ⟨t, ht, -⟩ := hrefs b hb
  have hknown : ({ db with nextId := db.nextId + 1 } : TaskDb).board.state b ≠ none :=
    state_ne_none_of_getTask ht
  refine ⟨hemits.state_ne_none hknown, ?_⟩
  rw [hemits.board_single]
  refine ne_of_eq_of_ne (Function.update_self ..) ?_
  exact Option.some_ne_none _

theorem joined_addDependency {blockerId blockedId : ℤ} (hdb : Joined db)
    (h : addDependency now actor db blockerId blockedId = (.ok (task, records), db')) :
    Joined db' := by
  obtain ⟨blocker, blocked, ⟨hblocker, -⟩, ⟨hblocked, -⟩, -, hemits⟩ := addDependency_ok h
  refine hdb.emits hemits fun event hevent edge hedge ↦ ?_
  rcases List.mem_cons.mp hevent with rfl | hevent
  · obtain rfl := List.mem_singleton.mp hedge
    exact ⟨hemits.state_ne_none (state_ne_none_of_getTask hblocker),
      hemits.state_ne_none (state_ne_none_of_getTask hblocked)⟩
  · split_ifs at hevent
    · obtain rfl := List.mem_singleton.mp hevent
      cases hedge
    · cases hevent

theorem joined_complete {result : CompleteResult} (hdb : Joined db)
    (h : complete now actor db id = (.ok (result, records), db')) : Joined db' := by
  obtain ⟨-, db₁, hemits, hflips⟩ := complete_ok h
  exact (hdb.plain hemits rfl).flips hflips

theorem joined_delete {result : CompleteResult} (hdb : Joined db)
    (h : delete now actor db id = (.ok (result, records), db')) : Joined db' := by
  obtain ⟨-, db₁, hemits, hflips⟩ := delete_ok h
  exact (hdb.plain hemits rfl).flips hflips

end TaskGraph

theorem TaskCall.joined_run (call : TaskCall) (hfaithful : db.Faithful) (hdb : Joined db) :
    Joined (call.run db).2 := by
  refine call.run_preserves hfaithful hdb ?_ ?_ ?_ ?_ ?_ ?_ ?_ ?_
  · exact fun _ _ _ h ↦ TaskGraph.joined_create hdb h
  · exact fun _ _ _ _ h ↦ TaskGraph.joined_addDependency hdb h
  · intro id owner r db' h
    rcases TaskGraph.claim_ok h with ⟨-, rfl, -⟩ | ⟨-, -, -, hemits⟩
    · exact hdb
    · exact hdb.plain hemits rfl
  · exact fun _ _ _ h ↦ hdb.plain (TaskGraph.start_ok h).2.2 rfl
  · exact fun _ _ _ h ↦ hdb.plain (TaskGraph.release_ok h).2 rfl
  · exact fun _ _ _ h ↦ TaskGraph.joined_complete hdb h
  · exact fun _ _ _ h ↦ TaskGraph.joined_delete hdb h
  · exact fun _ _ _ _ h ↦ hdb.plain (TaskGraph.setMetadata_ok h).2 rfl

theorem joined_runAll (calls : List TaskCall) (hfaithful : db.Faithful) (hdb : Joined db) :
    Joined (runAll calls db) := by
  induction calls generalizing db with
  | nil => exact hdb
  | cons call calls ih => exact ih (call.faithful_run hfaithful) (call.joined_run hfaithful hdb)

/-! ## What stays -/

/-- The event is about tasks of this kind. -/
def TaskEventInput.About (S : ℤ → Prop) (event : TaskEventInput) : Prop :=
  S event.taskId ∧ ∀ edge ∈ event.edges, S edge.blockedId

/-- Everything that was written is about tasks of this kind, and the others are where they were. -/
structure Within (S : ℤ → Prop) (db db' : TaskDb) : Prop where
  known : ∀ id, db.board.state id ≠ none → db'.board.state id ≠ none
  state : ∀ id, ¬ S id → db'.board.state id = db.board.state id
  waits : ∀ b id, ¬ S id → (db'.board.waits b id ↔ db.board.waits b id)
  events : ∃ records, db'.events = db.events ++ records ∧ ∀ record ∈ records, S record.taskId

theorem Within.refl (S : ℤ → Prop) (db : TaskDb) : Within S db db :=
  ⟨fun _ h ↦ h, fun _ _ ↦ rfl, fun _ _ _ ↦ Iff.rfl, [], (List.append_nil _).symm, by simp⟩

theorem Within.trans (h : Within S db db') (h' : Within S db' db'') : Within S db db'' where
  known id hid := h'.known id (h.known id hid)
  state id hid := (h'.state id hid).trans (h.state id hid)
  waits b id hid := (h'.waits b id hid).trans (h.waits b id hid)
  events := by
    obtain ⟨records, heq, hrecords⟩ := h.events
    obtain ⟨records', heq', hrecords'⟩ := h'.events
    refine ⟨records ++ records', ?_, List.forall_mem_append.mpr ⟨hrecords, hrecords'⟩⟩
    rw [heq', heq, List.append_assoc]

theorem Within.mono {S' : ℤ → Prop} (h : Within S db db') (hS : ∀ id, S id → S' id) :
    Within S' db db' where
  known := h.known
  state id hid := h.state id fun hid' ↦ hid (hS id hid')
  waits b id hid := h.waits b id fun hid' ↦ hid (hS id hid')
  events := by
    obtain ⟨records, heq, hrecords⟩ := h.events
    exact ⟨records, heq, fun record hrecord ↦ hS _ (hrecords record hrecord)⟩

theorem state_apply_of_ne {B : Board ℤ String} {event : TaskEventInput} (h : id ≠ event.taskId) :
    (B.apply event).state id = B.state id := by
  obtain ⟨taskId, actor, change⟩ := event
  cases change with
  | metadataUpdated metadata => rfl
  | dependencyAdded blockerId blockedId => rfl
  | _ => exact Function.update_of_ne h _ _

/-- **Events about some tasks** leave the others where they are. -/
theorem Within.of_emits {events : List TaskEventInput} (h : Emits now db events db')
    (hevents : ∀ event ∈ events, event.About S) : Within S db db' := by
  induction h with
  | nil => exact .refl S _
  | cons h _ ih =>
    obtain ⟨⟨htask, hedges⟩, hevents⟩ := List.forall_mem_cons.mp hevents
    have hone : Emits now _ [_] _ := .single h
    refine .trans ⟨fun _ ↦ hone.state_ne_none, fun id hid ↦ ?_, fun b id hid ↦ ?_, ?_⟩ (ih hevents)
    · rw [board_emit h]
      exact state_apply_of_ne fun heq ↦ hid (heq ▸ htask)
    · rw [board_emit h, waits_apply]
      exact or_iff_left fun hedge ↦ hid (hedges _ hedge)
    · obtain ⟨p, -, -, rfl⟩ := emit_eq_ok_iff.mp h
      exact ⟨[_], rfl, fun record hrecord ↦ List.mem_singleton.mp hrecord ▸ htask⟩

/-- The tasks that are listed and not of this kind were listed before. -/
theorem Within.mem_list (h : Within S db db') {task : Task}
    (htask : task ∈ TaskGraph.list db' false) (hS : ¬ S task.id) :
    ∃ before ∈ TaskGraph.list db false, before.status = task.status ∧ before.owner = task.owner := by
  obtain ⟨t, ht, rfl⟩ := List.mem_map.mp htask
  rw [listTasks, List.mem_insertionSort, List.mem_filter] at ht
  obtain ⟨hmem, halive⟩ := ht
  have hstate := h.state t.id hS
  rw [state_of_getTask (Keyed.find?_eq_some_iff.mpr ⟨hmem, rfl⟩)] at hstate
  obtain ⟨t₀, ht₀, hs, ho⟩ := state_eq_some.mp hstate.symm
  refine ⟨toTask t₀ db.listDeps, List.mem_map_of_mem ?_, hs, ho⟩
  rw [listTasks, List.mem_insertionSort, List.mem_filter, hs]
  exact ⟨(Keyed.find?_eq_some_iff.mp ht₀).1, halive⟩

/-- Tasks of this kind are moved. No task is added and no edge. -/
structure Moves (S : ℤ → Prop) (db db' : TaskDb) : Prop extends Within S db db' where
  edges : db'.board.waits = db.board.waits
  nextId : db'.nextId = db.nextId

theorem Moves.refl (S : ℤ → Prop) (db : TaskDb) : Moves S db db := ⟨.refl S db, rfl, rfl⟩

theorem Moves.trans (h : Moves S db db') (h' : Moves S db' db'') : Moves S db db'' :=
  ⟨h.toWithin.trans h'.toWithin, h'.edges.trans h.edges, h'.nextId.trans h.nextId⟩

theorem Moves.mono {S' : ℤ → Prop} (h : Moves S db db') (hS : ∀ id, S id → S' id) :
    Moves S' db db' := ⟨h.toWithin.mono hS, h.edges, h.nextId⟩

theorem Moves.of_emits {events : List TaskEventInput} (h : Emits now db events db')
    (hevents : ∀ event ∈ events, S event.taskId ∧ event.edges = []) : Moves S db db' := by
  refine ⟨.of_emits h fun event hevent ↦ ?_, funext fun a ↦ funext fun b ↦ propext ?_, h.nextId⟩
  · obtain ⟨htask, hedges⟩ := hevents event hevent
    refine ⟨htask, fun edge hedge ↦ ?_⟩
    rw [hedges] at hedge
    cases hedge
  · refine (waits_emits h a b).trans (or_iff_left ?_)
    rintro ⟨event, hevent, hedge⟩
    rw [(hevents event hevent).2] at hedge
    cases hedge

theorem Moves.of_single {event : TaskEventInput} (h : Emits now db [event] db')
    (htask : S event.taskId) (hedges : event.edges = []) : Moves S db db' :=
  .of_emits h fun _ he ↦ List.mem_singleton.mp he ▸ ⟨htask, hedges⟩

namespace TaskGraph

variable {task : Task} {records : List TaskEventRecord}

theorem within_create {input : CreateTaskInput}
    (h : create now actor db input = (.ok (task, records), db')) :
    Within (· = task.id) db db' := by
  obtain ⟨parsed, -, -, -, hid, hemits⟩ := create_ok h
  have hnext : Within (· = task.id) db { db with nextId := db.nextId + 1 } :=
    ⟨fun _ h ↦ h, fun _ _ ↦ rfl, fun _ _ _ ↦ Iff.rfl, (Within.refl (· = task.id) db).events⟩
  refine hnext.trans (.of_emits hemits fun event hevent ↦ ?_)
  obtain rfl := List.mem_singleton.mp hevent
  refine ⟨hid.symm, fun edge hedge ↦ ?_⟩
  obtain ⟨b, -, rfl⟩ := List.mem_map.mp hedge
  exact hid.symm

theorem moves_claim {owner : String} {result : ClaimResult}
    (h : claim now actor db id owner = (.ok (result, records), db')) : Moves (· = id) db db' := by
  rcases claim_ok h with ⟨-, rfl, -⟩ | ⟨-, -, -, hemits⟩
  · exact .refl _ _
  · exact .of_single hemits rfl rfl

theorem moves_start (h : start now actor db id = (.ok (task, records), db')) :
    Moves (· = id) db db' := .of_single (start_ok h).2.2 rfl rfl

theorem moves_release (h : release now actor db id = (.ok (task, records), db')) :
    Moves (· = id) db db' := .of_single (release_ok h).2 rfl rfl

/-- **A completion** moves its task and those that wait for it. -/
theorem moves_complete {result : CompleteResult}
    (h : complete now actor db id = (.ok (result, records), db')) :
    Moves (fun a ↦ a = id ∨ db.board.waits id a) db db' := by
  obtain ⟨-, db₁, hemits, hflips⟩ := complete_ok h
  have hfirst : Moves (fun a ↦ a = id ∨ db.board.waits id a) db db₁ :=
    .of_single hemits (.inl rfl) rfl
  refine hfirst.trans (.of_emits hflips fun event hevent ↦ ?_)
  obtain ⟨a, ha, rfl⟩ := List.mem_map.mp hevent
  have hwaits : db₁.board.waits id a := mem_listDeps.mp (mem_newlyUnblocked.mp ha).1
  rw [hfirst.edges] at hwaits
  exact ⟨.inr hwaits, rfl⟩

end TaskGraph

end QwenHarness.Tasks
