import QwenHarness.Tasks.Board
import QwenHarness.Tasks.Effects

/-!
# The operations keep the board lawful

One lemma for each operation. All but one hold as they stand. To release a task puts it back where
it can be picked up, whatever it waits for: a dependency may have been added while it was owned. So
`lawful_release` asks that the task waits for nothing.
-/

/-!
## The store as a board

`TaskDb.board` is what the tables show of the tasks: where each one is, who owns it and which waits
for which. Every event moves the board as `Board.apply` says, so what an operation does to the store
is known from the events it emits.
-/

namespace QwenHarness.Tasks

open EdgeList Relation

/-- What an event does to the board. -/
def Board.apply (B : Board ℤ String) (event : TaskEventInput) : Board ℤ String :=
  match event.change with
  | .created _ _ _ status _ blockedBy =>
    (B.put event.taskId (status, none)).link event.taskId (· ∈ blockedBy)
  | .claimed owner => B.adjust event.taskId fun _ ↦ (.claimed, some owner)
  | .released => B.adjust event.taskId fun _ ↦ (.released, none)
  | .statusChanged status => B.adjust event.taskId fun s ↦ (status, s.2)
  | .deleted => B.adjust event.taskId fun _ ↦ (.deleted, none)
  | .metadataUpdated _ => B
  | .dependencyAdded blockerId blockedId => B.link blockedId (· = blockerId)

namespace TaskDb

variable {now : ℕ → ℤ} {event : TaskEventInput} {db db' : TaskDb} {record : TaskEventRecord}
  {id : ℤ}

/-- What the tables show. -/
def board (db : TaskDb) : Board ℤ String where
  state id := (db.getTask id).map fun t ↦ (t.status, t.owner)
  waits a b := ⟨a, b⟩ ∈ db.projection.deps.rows

/-! ## Reading the board off the tables -/

theorem board_state (db : TaskDb) (id : ℤ) :
    db.board.state id = (db.getTask id).map fun t ↦ (t.status, t.owner) := rfl

@[simp] theorem mem_listDeps {e : DepEdge} : e ∈ db.listDeps ↔ e ∈ db.projection.deps.rows := by
  rw [listDeps, List.mem_insertionSort]

theorem edge_listDeps : Edge (db.listDeps.map DepEdge.pair) = db.board.waits := by
  funext a b
  rw [edge_pair, mem_listDeps]
  rfl

theorem board_empty : empty.board = Board.empty := by
  refine Board.ext rfl (funext fun a ↦ funext fun b ↦ propext ?_)
  exact iff_of_false List.not_mem_nil id

theorem state_of_getTask {t : StoredTask} (h : db.getTask id = some t) :
    db.board.state id = some (t.status, t.owner) := by
  rw [board_state, h, Option.map_some]

theorem state_eq_some {s : TaskStatus} {o : Option String} :
    db.board.state id = some (s, o) ↔ ∃ t, db.getTask id = some t ∧ t.status = s ∧ t.owner = o := by
  rw [board_state, Option.map_eq_some_iff]
  exact exists_congr fun t ↦ and_congr_right fun _ ↦ by rw [Prod.mk.injEq]

theorem state_eq_none : db.board.state id = none ↔ db.getTask id = none := Option.map_eq_none_iff

theorem isDone_iff : db.isDone id = true ↔ db.board.Done id := by
  rw [isDone, Option.any_eq_true]
  constructor
  · rintro ⟨t, ht, hs⟩
    exact ⟨t.status, t.owner, state_of_getTask ht, hs⟩
  · rintro ⟨s, o, hstate, hs⟩
    obtain ⟨t, ht, rfl, -⟩ := state_eq_some.mp hstate
    exact ⟨t, ht, hs⟩

theorem isBlocked_iff : db.isBlocked id = true ↔ ∃ o, db.board.state id = some (.blocked, o) := by
  rw [isBlocked, Option.any_eq_true]
  constructor
  · rintro ⟨t, ht, hs⟩
    exact ⟨t.owner, by rw [state_of_getTask ht, of_decide_eq_true hs]⟩
  · rintro ⟨o, hstate⟩
    obtain ⟨t, ht, hs, -⟩ := state_eq_some.mp hstate
    exact ⟨t, ht, decide_eq_true hs⟩

theorem allBlockersCompleted_iff_not_waiting :
    allBlockersCompleted db.listDeps id db.isDone = true ↔ ¬ db.board.Waiting id := by
  rw [allBlockersCompleted_iff, Board.not_waiting_iff]
  exact forall_congr' fun b ↦ imp_congr mem_listDeps isDone_iff

theorem wouldCreateCycle_eq_false {a b : ℤ} :
    wouldCreateCycle db.listDeps a b = false ↔ a ≠ b ∧ ¬ TransGen db.board.waits b a := by
  rw [wouldCreateCycle_eq_false_iff, edge_listDeps]

/-! ## One event -/

theorem mem_addDep {deps : Keyed DepEdge.pair} {a b : ℤ} {e : DepEdge} :
    e ∈ (addDep deps a b).rows ↔ e ∈ deps.rows ∨ e = ⟨a, b⟩ := by
  rw [addDep]
  cases hi : deps.insert ⟨a, b⟩ with
  | none =>
    obtain ⟨x, hx, hkey⟩ := Keyed.insert_eq_none_iff.mp hi
    have hx' : x = ⟨a, b⟩ := by
      obtain ⟨x₁, x₂⟩ := x
      cases hkey
      rfl
    rw [Option.getD_none]
    refine (or_iff_left_of_imp ?_).symm
    rintro rfl
    exact hx' ▸ hx
  | some deps' =>
    rw [Option.getD_some, Keyed.rows_of_insert hi, List.mem_append, List.mem_singleton]

theorem mem_foldl_addDep {deps : Keyed DepEdge.pair} {bs : List ℤ} {b : ℤ} {e : DepEdge} :
    e ∈ (bs.foldl (fun deps a ↦ addDep deps a b) deps).rows ↔
      e ∈ deps.rows ∨ e.blockedId = b ∧ e.blockerId ∈ bs := by
  induction bs generalizing deps with
  | nil => simp
  | cons a bs ih =>
    rw [List.foldl_cons, ih, mem_addDep, List.mem_cons, or_assoc, and_or_left]
    refine or_congr_right (or_congr_left ?_)
    obtain ⟨x, y⟩ := e
    rw [DepEdge.mk.injEq, and_comm]

/-- The row an event leaves under an id. -/
theorem state_modify {change : TaskChange} {ts : ℤ} {f : TaskStatus × Option String →
      TaskStatus × Option String} (p : Projection)
    (hf : ∀ t : StoredTask, ((change.update ts t).status, (change.update ts t).owner) =
      f (t.status, t.owner)) (k : ℤ) :
    (((p.nodes.modify id (change.update ts) (change.id_update ts)).find? k).map fun t ↦
        (t.status, t.owner)) =
      Function.update (fun k ↦ (p.nodes.find? k).map fun t ↦ (t.status, t.owner)) id
        (((p.nodes.find? id).map fun t ↦ (t.status, t.owner)).map f) k := by
  rw [Keyed.find?_modify]
  by_cases hk : k = id
  · subst hk
    rw [if_pos rfl, Function.update_self, Option.map_map, Option.map_map]
    exact Option.map_congr fun t _ ↦ hf t
  · rw [if_neg hk, Function.update_of_ne hk]

/-- **One event** moves the board as `Board.apply` says. -/
theorem board_emit (h : db.emit now event = .ok (record, db')) :
    db'.board = db.board.apply event := by
  obtain ⟨p, hp, -, rfl⟩ := emit_eq_ok_iff.mp h
  obtain ⟨taskId, actor, change⟩ := event
  cases change with
  | created subject description activeForm status metadata blockedBy =>
    obtain ⟨nodes, hnodes, rfl⟩ := Option.map_eq_some_iff.mp hp
    refine Board.ext (funext fun k ↦ ?_) (funext fun a ↦ funext fun b ↦ propext ?_)
    · have happly : (db.board.apply ⟨taskId, actor, .created subject description activeForm status
          metadata blockedBy⟩).state k =
          Function.update db.board.state taskId (some (status, none)) k := rfl
      rw [happly, board_state, getTask, Keyed.find?_insert hnodes]
      by_cases hk : k = taskId
      · subst hk
        rw [Function.update_self]
        exact congrArg (Option.map _) (if_pos rfl)
      · rw [Function.update_of_ne hk]
        exact congrArg (Option.map _) (if_neg hk)
    · exact mem_foldl_addDep
  | dependencyAdded blockerId blockedId =>
    cases hp
    refine Board.ext (funext fun k ↦ ?_) (funext fun a ↦ funext fun b ↦ propext ?_)
    · refine (state_modify db.projection (f := id) (fun t ↦ rfl) k).trans ?_
      rw [Option.map_id_apply, Function.update_eq_self]
      rfl
    · refine mem_addDep.trans (or_congr_right ?_)
      rw [DepEdge.mk.injEq]
      exact and_comm
  | metadataUpdated metadata =>
    cases hp
    refine Board.ext (funext fun k ↦ ?_) rfl
    refine (state_modify db.projection (f := id) (fun t ↦ rfl) k).trans ?_
    rw [Option.map_id_apply, Function.update_eq_self]
    rfl
  | _ =>
    cases hp
    exact Board.ext (funext fun k ↦ state_modify db.projection (fun t ↦ rfl) k) rfl

/-- A new task has an id that no task had. -/
theorem state_of_emit_created {taskId : ℤ} {actor : Actor} {subject description activeForm : String}
    {status : TaskStatus} {metadata : List (String × Codec.Value)} {blockedBy : List ℤ}
    (h : db.emit now ⟨taskId, actor, .created subject description activeForm status metadata
      blockedBy⟩ = .ok (record, db')) : db.board.state taskId = none := by
  obtain ⟨p, hp, -, -⟩ := emit_eq_ok_iff.mp h
  obtain ⟨nodes, hnodes, -⟩ := Option.map_eq_some_iff.mp hp
  rw [state_eq_none]
  exact Keyed.find?_eq_none_iff.mpr (Keyed.insert_eq_some_iff.mp hnodes).1

/-- **Events** move the board one after the other. -/
theorem Emits.board {events : List TaskEventInput} (h : Emits now db events db') :
    db'.board = events.foldl Board.apply db.board := by
  induction h with
  | nil => rfl
  | cons h _ ih => rw [ih, board_emit h, List.foldl_cons]

end TaskDb

end QwenHarness.Tasks

namespace QwenHarness.Tasks

open EdgeList Relation TaskDb

namespace Board

variable {ι ο : Type} [DecidableEq ι] {B : Board ι ο} {id : ι}

/-- **To move one task**, edges as they are, keeps the board lawful if the task comes out sound and
is done with neither before nor after. -/
theorem Lawful.adjust (hB : B.Lawful) {f : TaskStatus × Option ο → TaskStatus × Option ο}
    (hopen : ∀ s o, B.state id = some (s, o) →
      isSatisfied s = false ∧ isSatisfied (f (s, o)).1 = false)
    (hsound : ∀ s o, B.state id = some (s, o) → B.Sound id (f (s, o)).1 (f (s, o)).2) :
    (B.adjust id f).Lawful := by
  have hid : (B.adjust id f).state id = (B.state id).map f := Function.update_self ..
  have hother : ∀ a, a ≠ id → (B.adjust id f).state a = B.state a :=
    fun a ha ↦ Function.update_of_ne ha _ _
  have hdone : ∀ b, (B.adjust id f).Done b ↔ B.Done b := by
    intro b
    by_cases hb : b = id
    · subst hb
      cases hs : B.state b with
      | none => rw [Done, Done, hid, hs, Option.map_none]
      | some so =>
        obtain ⟨s, o⟩ := so
        have hs' : (B.adjust b f).state b = some ((f (s, o)).1, (f (s, o)).2) := by
          rw [hid, hs, Option.map_some]
        rw [done_of_state hs, done_of_state hs', (hopen s o hs).1, (hopen s o hs).2]
    · rw [Done, Done, hother b hb]
  refine hB.change hother (hdone id) ?_ (fun _ _ _ ↦ Iff.rfl) ?_ hB.acyclic ?_
  · rw [hid]
    exact fun h ↦ by simpa using h
  · intro a ha
    obtain ⟨ha', hid'⟩ := hB.joined a id ha
    refine ⟨?_, by rw [hid]; simpa using hid'⟩
    by_cases haid : a = id
    · rw [haid, hid]
      simpa using hid'
    · rwa [hother a haid]
  · intro s o hs
    rw [hid] at hs
    obtain ⟨⟨s', o'⟩, hs', hf⟩ := Option.map_eq_some_iff.mp hs
    have hsound := hsound s' o' hs'
    rw [hf] at hsound
    exact hsound.congr (exists_congr fun b ↦ and_congr_right fun _ ↦ not_congr (hdone b))

end Board

namespace TaskGraph

variable {now : ℕ → ℤ} {actor : Actor} {db db' : TaskDb} {id : ℤ} {task : Task}
  {records : List TaskEventRecord}

theorem lawful_create {input : CreateTaskInput} (hdb : db.board.Lawful)
    (h : create now actor db input = (.ok (task, records), db')) : db'.board.Lawful := by
  obtain ⟨parsed, -, hrefs, hcycle, -, hemits⟩ := create_ok h
  generalize distinct parsed.blockedBy = blockedBy at hrefs hcycle hemits
  have hfresh : db.board.state db.nextId = none := by
    rcases hemits with - | ⟨hemit, -⟩
    have hnone := state_of_emit_created hemit
    exact hnone
  have hboard := hemits.board
  rw [List.foldl_cons, List.foldl_nil] at hboard
  -- The board of the store is the one before the id was taken.
  change db'.board = (db.board.put db.nextId (firstStatus db blockedBy, none)).link db.nextId
    (· ∈ blockedBy) at hboard
  rw [hboard]
  have hnew : ((db.board.put db.nextId (firstStatus db blockedBy, none)).link db.nextId
      (· ∈ blockedBy)).state db.nextId = some (firstStatus db blockedBy, none) :=
    Function.update_self ..
  have hother : ∀ a, a ≠ db.nextId → ((db.board.put db.nextId
      (firstStatus db blockedBy, none)).link db.nextId (· ∈ blockedBy)).state a =
      db.board.state a := fun a ha ↦ Function.update_of_ne ha _ _
  have hexists : ∀ b ∈ blockedBy, db.board.state b ≠ none ∧ b ≠ db.nextId := by
    intro b hb
    obtain ⟨t, ht, -⟩ := hrefs b hb
    have hb' : db.board.state b ≠ none := by rw [state_of_getTask ht]; exact Option.some_ne_none _
    exact ⟨hb', fun heq ↦ hb' (heq ▸ hfresh)⟩
  have hnone : ∀ b, ¬ db.board.waits b db.nextId := fun b hb ↦ (hdb.joined _ _ hb).2 hfresh
  have hdone : ∀ b, b ≠ db.nextId → (((db.board.put db.nextId
      (firstStatus db blockedBy, none)).link db.nextId (· ∈ blockedBy)).Done b ↔
      db.board.Done b) := fun b hb ↦ by rw [Board.Done, Board.Done, hother b hb]
  have hwaiting : ((db.board.put db.nextId (firstStatus db blockedBy, none)).link db.nextId
      (· ∈ blockedBy)).Waiting db.nextId ↔ ¬ ∀ b ∈ blockedBy, db.isDone b = true := by
    rw [not_forall]
    refine exists_congr fun b ↦ ?_
    rw [Classical.not_imp]
    constructor
    · rintro ⟨hb | ⟨-, hb⟩, hopen⟩
      · exact absurd hb (hnone b)
      · exact ⟨hb, fun hd ↦ hopen ((hdone b (hexists b hb).2).mpr (isDone_iff.mp hd))⟩
    · rintro ⟨hb, hopen⟩
      exact ⟨.inr ⟨rfl, hb⟩,
        fun hd ↦ hopen (isDone_iff.mpr ((hdone b (hexists b hb).2).mp hd))⟩
  refine hdb.change hother ?_ (fun _ ↦ by rw [hnew]; exact Option.some_ne_none _) ?_ ?_ ?_ ?_
  · rw [Board.done_of_state hnew]
    refine iff_of_false ?_ ?_
    · rw [firstStatus]
      split_ifs <;> decide
    · rintro ⟨s, o, hs, -⟩
      rw [hfresh] at hs
      cases hs
  · exact fun a b hb ↦ or_iff_left fun hb' ↦ hb hb'.1
  · rintro a (ha | ⟨-, ha⟩)
    · exact absurd ha (hnone a)
    · refine ⟨?_, by rw [hnew]; exact Option.some_ne_none _⟩
      rw [hother a (hexists a ha).2]
      exact (hexists a ha).1
  · refine acyclic_link hdb.acyclic fun b hb ↦ ?_
    exact wouldCreateCycle_eq_false.mp (hcycle b hb)
  · intro s o hs
    cases hnew.symm.trans hs
    rw [firstStatus] at hwaiting ⊢
    split_ifs at hwaiting ⊢ with hall
    · exact .of_claimable (by decide) fun hw ↦ hwaiting.mp hw hall
    · exact .of_waiting (hwaiting.mpr hall)

theorem lawful_addDependency {blockerId blockedId : ℤ} (hdb : db.board.Lawful)
    (h : addDependency now actor db blockerId blockedId = (.ok (task, records), db')) :
    db'.board.Lawful := by
  obtain ⟨blocker, blocked, ⟨hblocker, -⟩, ⟨hblocked, -⟩, hcycle, hemits⟩ := addDependency_ok h
  obtain ⟨hne, hback⟩ := wouldCreateCycle_eq_false.mp hcycle
  have hboard := hemits.board
  have hstate := state_of_getTask hblocked
  have hstate' := state_of_getTask hblocker
  have hacyclic : ∀ a, ¬ TransGen (db.board.link blockedId (· = blockerId)).waits a a := by
    refine acyclic_link hdb.acyclic fun b hb ↦ ?_
    rw [hb]
    exact ⟨hne, hback⟩
  rw [List.foldl_cons] at hboard
  split_ifs at hboard with hflip
  · -- The task has to wait now, and it has no owner.
    obtain ⟨hfree, hopen⟩ := hflip
    have hnone : blocked.owner = none :=
      (hdb.sound _ _ _ hstate).free (hfree.imp_right .inr)
    have hid : db'.board.state blockedId = some (.blocked, none) := by
      rw [hboard]
      refine (Function.update_self ..).trans ?_
      refine (congrArg _ hstate).trans ?_
      rw [Option.map_some, hnone]
    have hother : ∀ a, a ≠ blockedId → db'.board.state a = db.board.state a := by
      intro a ha
      rw [hboard]
      exact Function.update_of_ne ha _ _
    have hwaits : ∀ a b, db'.board.waits a b ↔
        db.board.waits a b ∨ b = blockedId ∧ a = blockerId := by
      intro a b
      rw [hboard]
      exact Iff.rfl
    refine hdb.change hother ?_ (fun _ ↦ by rw [hid]; exact Option.some_ne_none _) ?_ ?_ ?_ ?_
    · rw [Board.done_of_state hid, Board.done_of_state hstate]
      rcases hfree with hs | hs <;> rw [hs] <;> decide
    · exact fun a b hb ↦ (hwaits a b).trans (or_iff_left fun hb' ↦ hb hb'.1)
    · intro a ha
      refine ⟨?_, by rw [hid]; exact Option.some_ne_none _⟩
      by_cases hab : a = blockedId
      · rw [hab, hid]
        exact Option.some_ne_none _
      · rw [hother a hab]
        rcases (hwaits a blockedId).mp ha with ha | ⟨-, rfl⟩
        · exact (hdb.joined a blockedId ha).1
        · rw [hstate']
          exact Option.some_ne_none _
    · rw [hboard]
      exact hacyclic
    · intro s o hs
      cases hid.symm.trans hs
      refine .of_waiting ⟨blockerId, (hwaits _ _).mpr (.inr ⟨rfl, rfl⟩), ?_⟩
      rw [Board.Done, hother blockerId hne]
      rw [← Board.Done, Board.done_of_state hstate', hopen]
      decide
  · -- The task stays where it is: it is not free, or the blocker is done with.
    rw [List.foldl_nil] at hboard
    change db'.board = db.board.link blockedId (· = blockerId) at hboard
    rw [hboard]
    have hdone : ∀ b, (db.board.link blockedId (· = blockerId)).Done b ↔ db.board.Done b :=
      fun _ ↦ Iff.rfl
    have hkeep : db.board.state blockedId ≠ none → db.board.state blockedId ≠ none := fun hn ↦ hn
    refine hdb.change (fun _ _ ↦ rfl) (hdone blockedId) hkeep ?_ ?_ hacyclic ?_
    · exact fun a b hb ↦ or_iff_left fun hb' ↦ hb hb'.1
    · rintro a (ha | ⟨-, rfl⟩)
      · exact hdb.joined a blockedId ha
      · refine ⟨?_, ?_⟩
        · exact fun hn ↦ Option.some_ne_none _ (hstate'.symm.trans hn)
        · exact fun hn ↦ Option.some_ne_none _ (hstate.symm.trans hn)
    · intro s o hs
      have hsound := hdb.sound _ _ _ hs
      obtain ⟨rfl, rfl⟩ := Prod.mk.inj (Option.some.inj (hstate.symm.trans hs))
      refine ⟨fun hb ↦ ?_, fun hclaim ↦ ?_, hsound.owned, hsound.free⟩
      · obtain ⟨b, hb, hopen⟩ := hsound.waiting hb
        exact ⟨b, .inl hb, hopen⟩
      · rintro ⟨b, hb | ⟨-, rfl⟩, hopen⟩
        · exact hsound.ready hclaim ⟨b, hb, hopen⟩
        · refine hflip ⟨by simpa [isClaimable] using hclaim, ?_⟩
          rw [hdone, Board.done_of_state hstate'] at hopen
          exact Bool.not_eq_true _ ▸ hopen

theorem lawful_claim {owner : String} {result : ClaimResult} (hdb : db.board.Lawful)
    (h : claim now actor db id owner = (.ok (result, records), db')) : db'.board.Lawful := by
  rcases claim_ok h with ⟨-, rfl, -⟩ | ⟨-, -, ⟨t, ht, -, hclaim⟩, hemits⟩
  · exact hdb
  · rw [hemits.board]
    refine hdb.adjust (fun s o hs ↦ ⟨?_, rfl⟩) fun _ _ _ ↦ .of_owned rfl
    cases (state_of_getTask ht).symm.trans hs
    have hcases : t.status = .pending ∨ t.status = .released := by simpa [isClaimable] using hclaim
    rcases hcases with hs | hs <;> rw [hs] <;> decide

theorem lawful_start (hdb : db.board.Lawful)
    (h : start now actor db id = (.ok (task, records), db')) : db'.board.Lawful := by
  obtain ⟨⟨t, ht, hclaimed⟩, -, hemits⟩ := start_ok h
  have hstate := state_of_getTask ht
  rw [hclaimed] at hstate
  rw [hemits.board]
  refine hdb.adjust (fun s o hs ↦ ?_) fun s o hs ↦ ?_
  · cases hstate.symm.trans hs
    exact ⟨rfl, rfl⟩
  · cases hstate.symm.trans hs
    obtain ⟨owner, ho⟩ := Option.ne_none_iff_exists'.mp ((hdb.sound _ _ _ hstate).owned (by decide))
    rw [ho]
    exact .of_owned rfl

/-- **To release a task** keeps the board lawful if the task waits for nothing. -/
theorem lawful_release (hdb : db.board.Lawful) (hready : ¬ db.board.Waiting id)
    (h : release now actor db id = (.ok (task, records), db')) : db'.board.Lawful := by
  obtain ⟨⟨t, ht, howned⟩, hemits⟩ := release_ok h
  rw [hemits.board]
  refine hdb.adjust (fun s o hs ↦ ⟨?_, rfl⟩) fun s o hs ↦ .of_claimable rfl hready
  cases (state_of_getTask ht).symm.trans hs
  have hcases : t.status = .claimed ∨ t.status = .inProgress := by simpa [isOwned] using howned
  rcases hcases with hs | hs <;> rw [hs] <;> decide

theorem lawful_setMetadata {metadata : List (String × Codec.Value)} (hdb : db.board.Lawful)
    (h : setMetadata now actor db id metadata = (.ok (task, records), db')) :
    db'.board.Lawful := by
  rw [(setMetadata_ok h).2.board]
  exact hdb

/-! ## Finishing a task -/

/-- The board after tasks were flipped to pending. -/
theorem foldl_flips (actor : Actor) (ids : List ℤ) (B : Board ℤ String) :
    (∀ a b, ((flips actor ids).foldl Board.apply B).waits a b ↔ B.waits a b) ∧
      ∀ a, ((flips actor ids).foldl Board.apply B).state a =
        if a ∈ ids then (B.state a).map fun s ↦ (.pending, s.2) else B.state a := by
  induction ids generalizing B with
  | nil => exact ⟨fun _ _ ↦ Iff.rfl, fun a ↦ (if_neg (by simp)).symm⟩
  | cons id ids ih =>
    rw [flips, List.map_cons, List.foldl_cons, ← flips]
    obtain ⟨hwaits, hstate⟩ := ih (B.apply ⟨id, actor, .statusChanged .pending⟩)
    refine ⟨hwaits, fun a ↦ ?_⟩
    rw [hstate a]
    have hself : (B.apply ⟨id, actor, .statusChanged .pending⟩).state a =
        if a = id then (B.state a).map fun s ↦ (.pending, s.2) else B.state a := by
      by_cases ha : a = id
      · rw [if_pos ha, ha]
        exact Function.update_self ..
      · rw [if_neg ha]
        exact Function.update_of_ne ha _ _
    rw [hself]
    by_cases ha : a = id
    · subst ha
      rw [if_pos rfl, if_pos List.mem_cons_self, Option.map_map]
      exact ite_self _
    · rw [if_neg ha]
      exact if_congr (by rw [List.mem_cons, or_iff_right ha]) rfl rfl

/-- A task is completed or deleted, and then the tasks that waited for nothing else are flipped. -/
theorem lawful_finish {db₁ : TaskDb} {f : TaskStatus × Option String → TaskStatus × Option String}
    (hdb : db.board.Lawful) (hexists : db.board.state id ≠ none)
    (hf : ∀ s, isSatisfied (f s).1 = true) (hboard : db₁.board = db.board.adjust id f)
    (hemits : Emits now db₁
      (flips actor (newlyUnblocked db₁.listDeps id db₁.isBlocked db₁.isDone)) db') :
    db'.board.Lawful := by
  obtain ⟨⟨s, o⟩, hstate⟩ := Option.ne_none_iff_exists'.mp hexists
  have hid : db₁.board.state id = some (f (s, o)) := by
    rw [hboard]
    exact (Function.update_self ..).trans (congrArg (Option.map f) hstate)
  have hother : ∀ a, a ≠ id → db₁.board.state a = db.board.state a := by
    intro a ha
    rw [hboard]
    exact Function.update_of_ne ha _ _
  have hwaits : ∀ a b, db₁.board.waits a b ↔ db.board.waits a b := by
    intro a b
    rw [hboard]
    exact Iff.rfl
  have hdone : ∀ b, b ≠ id → (db₁.board.Done b ↔ db.board.Done b) :=
    fun b hb ↦ by rw [Board.Done, Board.Done, hother b hb]
  have hdone_id : db₁.board.Done id := (Board.done_of_state hid).mpr (hf _)
  -- What is flipped, in terms of the board before.
  have hmem : ∀ a, a ≠ id → (a ∈ newlyUnblocked db₁.listDeps id db₁.isBlocked db₁.isDone ↔
      db.board.waits id a ∧ (∃ o, db.board.state a = some (.blocked, o)) ∧
        ∀ b, db.board.waits b a → b ≠ id → db.board.Done b) := by
    intro a ha
    rw [mem_newlyUnblocked, mem_listDeps, isBlocked_iff, hother a ha]
    refine and_congr (hwaits id a) (and_congr_right fun _ ↦ forall_congr' fun b ↦ ?_)
    rw [mem_listDeps, isDone_iff]
    refine imp_congr (hwaits b a) ?_
    by_cases hb : b = id
    · subst hb
      exact iff_of_true hdone_id (absurd rfl)
    · rw [hdone b hb]
      exact ⟨fun hd _ ↦ hd, fun hd ↦ hd hb⟩
  have hid_mem : id ∉ newlyUnblocked db₁.listDeps id db₁.isBlocked db₁.isDone := by
    rw [mem_newlyUnblocked, isBlocked_iff]
    rintro ⟨-, ⟨o', ho⟩, -⟩
    rw [hid] at ho
    have hsat := hf (s, o)
    rw [Option.some.inj ho] at hsat
    exact Bool.false_ne_true hsat
  rw [hemits.board]
  obtain ⟨hwaits', hstate'⟩ := foldl_flips actor
    (newlyUnblocked db₁.listDeps id db₁.isBlocked db₁.isDone) db₁.board
  have hfinal := (hstate' id).trans ((if_neg hid_mem).trans hid)
  refine hdb.finish (hf (s, o)) hfinal hexists (fun a b ↦ (hwaits' a b).trans (hwaits a b)) ?_ ?_
  · rintro a ha hwait ⟨o', hblocked⟩ hrest
    rw [hstate' a, if_pos ((hmem a ha).mpr ⟨hwait, ⟨o', hblocked⟩, hrest⟩), hother a ha, hblocked,
      Option.map_some, (hdb.sound _ _ _ hblocked).free (.inr (.inl rfl))]
  · intro a ha hnot
    rw [hstate' a, if_neg fun hin ↦ hnot ((hmem a ha).mp hin), hother a ha]

theorem lawful_complete {result : CompleteResult} (hdb : db.board.Lawful)
    (h : complete now actor db id = (.ok (result, records), db')) : db'.board.Lawful := by
  obtain ⟨⟨t, ht, -⟩, db₁, hemits, hflips⟩ := complete_ok h
  refine lawful_finish hdb ?_ (fun s ↦ ?_) hemits.board hflips
  · rw [state_of_getTask ht]
    exact Option.some_ne_none _
  · rfl

theorem lawful_delete {result : CompleteResult} (hdb : db.board.Lawful)
    (h : delete now actor db id = (.ok (result, records), db')) : db'.board.Lawful := by
  obtain ⟨⟨t, ht, -⟩, db₁, hemits, hflips⟩ := delete_ok h
  refine lawful_finish hdb ?_ (fun s ↦ ?_) hemits.board hflips
  · rw [state_of_getTask ht]
    exact Option.some_ne_none _
  · rfl

end TaskGraph

end QwenHarness.Tasks
