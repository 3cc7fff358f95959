import QwenHarness.Cli.TeamSteps
import QwenHarness.Teams.Steps
import QwenHarness.Tasks.Standing

/-!
# Who holds a task in a team run

A member that has claimed a task holds it until it completes or releases it, whatever the other
members do meanwhile. They change only tasks that are free and tasks of their own, and no two members
have one name.
-/

namespace QwenHarness.Cli

open Tasks Teams

/-- The member holds the task, in this status. -/
def Holding (db : TaskDb) (member : String) (id : ℤ) (s : TaskStatus) : Prop :=
  ∃ c, tenure db id = some ⟨s, some member, c⟩

/-- What the process takes to be in its hands is. -/
def Doing.Holds (db : TaskDb) (member : String) : Doing → Prop
  | .starting id => Holding db member id .claimed
  | .opening id => Holding db member id .inProgress
  | .working id _ _ => Holding db member id .inProgress
  | .releasing tasks =>
    (tasks.map Task.id).Nodup ∧ ∀ t ∈ tasks, ∃ s, Holding db member t.id s
  | _ => True

/-- What is in the hands of others stays there. -/
def Spares (member : String) (db db' : TaskDb) : Prop :=
  ∀ id τ, tenure db id = some τ → τ.owner ≠ some member → tenure db' id = some τ

variable {db db' : TaskDb} {member : String} {id : ℤ} {s : TaskStatus}

theorem Spares.refl (member : String) (db : TaskDb) : Spares member db db := fun _ _ h _ ↦ h

theorem Holding.owned (h : Holding db member id s) : isOwned s = true ∧
    db.board.state id = some (s, some member) := by
  obtain ⟨c, hc⟩ := h
  obtain ⟨howned, hstate, -⟩ := tenure_eq_some.mp hc
  exact ⟨howned, hstate⟩

theorem Holding.spared {other : String} (h : Holding db member id s) (hspares : Spares other db db')
    (hne : member ≠ other) : Holding db' member id s := by
  obtain ⟨c, hc⟩ := h
  refine ⟨c, hspares id _ hc fun ho ↦ hne ?_⟩
  exact Option.some.inj ho

theorem Doing.Holds.imp {doing : Doing} (h : doing.Holds db member)
    (himp : ∀ id s, Holding db member id s → Holding db' member id s) :
    doing.Holds db' member := by
  cases doing with
  | starting id => exact himp _ _ h
  | opening id => exact himp _ _ h
  | working id subject stage => exact himp _ _ h
  | releasing tasks =>
    refine ⟨h.1, fun t ht ↦ ?_⟩
    obtain ⟨s, hs⟩ := h.2 t ht
    exact ⟨s, himp _ _ hs⟩
  | _ => exact trivial

/-! ## The operations on the graph -/

section Operations

variable {now : ℕ → ℤ} {actor : Actor} {task : Task} {records : List TaskEventRecord}

/-- One tenure changes, and it was not in the hands of others. -/
theorem Spares.of_update {τ : Option Tenure}
    (h : tenure db' = Function.update (tenure db) id τ)
    (hmine : ∀ σ, tenure db id = some σ → σ.owner = some member) : Spares member db db' := by
  intro a σ hσ howner
  have hne : a ≠ id := by
    rintro rfl
    exact howner (hmine σ hσ)
  rw [h, Function.update_of_ne hne]
  exact hσ

/-- A task that was taken by its member alone. -/
theorem Holding.owner (h : Holding db member id s) (σ : Tenure) (hσ : tenure db id = some σ) :
    σ.owner = some member := by
  obtain ⟨c, hc⟩ := h
  rw [Option.some.inj (hσ.symm.trans hc)]

theorem claim_won {owner : String}
    (h : TaskGraph.claim now actor db id owner = (.ok (.won task, records), db')) :
    Holding db' owner id .claimed ∧ Spares owner db db' := by
  obtain ⟨hnone, htenure⟩ := TaskGraph.tenure_claim h
  refine ⟨⟨_, (congrFun htenure id).trans (Function.update_self ..)⟩, .of_update htenure ?_⟩
  intro σ hσ
  cases hnone.symm.trans hσ

theorem start_holds (hhold : Holding db member id .claimed)
    (h : TaskGraph.start now actor db id = (.ok (task, records), db')) :
    Holding db' member id .inProgress ∧ Spares member db db' := by
  obtain ⟨o, ho, htenure⟩ := TaskGraph.tenure_start h
  refine ⟨?_, .of_update htenure hhold.owner⟩
  obtain rfl : o = some member := hhold.owner _ ho
  exact ⟨_, (congrFun htenure id).trans (Function.update_self ..)⟩

theorem release_spares (hhold : Holding db member id s)
    (h : TaskGraph.release now actor db id = (.ok (task, records), db')) :
    Spares member db db' ∧ ∀ a s, a ≠ id → Holding db member a s → Holding db' member a s := by
  obtain ⟨-, htenure⟩ := TaskGraph.tenure_release h
  refine ⟨.of_update htenure hhold.owner, fun a s ha ⟨c, hc⟩ ↦ ⟨c, ?_⟩⟩
  rw [htenure, Function.update_of_ne ha]
  exact hc

theorem complete_spares {result : CompleteResult} (hhold : Holding db member id s)
    (h : TaskGraph.complete now actor db id = (.ok (result, records), db')) :
    Spares member db db' :=
  .of_update (TaskGraph.tenure_complete h).2 hhold.owner

/-- A new task is in nobody's hands, and the others stay where they are. -/
theorem create_keeps {input : CreateTaskInput}
    (h : TaskGraph.create now actor db input = (.ok (task, records), db')) {a : ℤ} {τ : Tenure}
    (hτ : tenure db a = some τ) : tenure db' a = some τ := by
  obtain ⟨parsed, -, -, -, -, hemits⟩ := TaskGraph.create_ok h
  obtain ⟨howned, hstate, hclaim⟩ := tenure_eq_some.mp hτ
  have hfresh : db.board.state db.nextId = none := by
    rcases hemits with - | ⟨hemit, -⟩
    have hnone := TaskDb.state_of_emit_created hemit
    exact hnone
  have hne : a ≠ db.nextId := by
    rintro rfl
    cases hfresh.symm.trans hstate
  refine tenure_eq_some.mpr ⟨howned, ?_, ?_⟩
  · rw [hemits.board, List.foldl_cons, List.foldl_nil]
    exact (Function.update_of_ne hne _ _).trans hstate
  · rw [lastClaim_single hemits (by rintro ⟨⟩)]
    exact hclaim

end Operations

/-! ## What is listed -/

theorem mem_list {task : Task} (h : task ∈ TaskGraph.list db false) :
    ∃ t, db.getTask task.id = some t ∧ task.status = t.status ∧ task.owner = t.owner := by
  obtain ⟨t, ht, rfl⟩ := List.mem_map.mp h
  rw [TaskDb.listTasks, List.mem_insertionSort, List.mem_filter] at ht
  exact ⟨t, Keyed.find?_eq_some_iff.mpr ⟨ht.1, rfl⟩, rfl, rfl⟩

theorem nodup_list (db : TaskDb) : ((TaskGraph.list db false).map Task.id).Nodup := by
  have hids : (TaskGraph.list db false).map Task.id = (db.listTasks false).map StoredTask.id := by
    rw [TaskGraph.list, List.map_map]
    rfl
  rw [hids, TaskDb.listTasks, ((List.perm_insertionSort _ _).map _).nodup_iff]
  exact db.projection.nodes.nodup.sublist (List.filter_sublist.map _)

/-- What a member that leaves is going to release is in its hands. -/
theorem holds_leaving (db : TaskDb) (member : String) :
    (Doing.releasing ((TaskGraph.list db false).filter (isHeldBy member))).Holds db member := by
  refine ⟨(nodup_list db).sublist (List.filter_sublist.map _), fun task htask ↦ ?_⟩
  obtain ⟨hmem, hheld⟩ := List.mem_filter.mp htask
  obtain ⟨howner, hstatus⟩ := of_decide_eq_true hheld
  obtain ⟨t, ht, hs, ho⟩ := mem_list hmem
  have howned : isOwned t.status = true := by
    rw [← hs]
    rcases hstatus with hs | hs <;> rw [hs] <;> rfl
  refine ⟨t.status, lastClaim db task.id, ?_⟩
  rw [tenure_of_state (TaskDb.state_of_getTask ht), Tenure.of, if_pos howned, ← ho, howner]

/-! ## The moves of a member -/

section Moves

variable {input : StepInput} {m : Member} {run run' : TeamRun}

theorem Doing.Free.holds {doing : Doing} (h : doing.Free) : doing.Holds db member := by
  cases doing with
  | starting id => exact h.elim
  | opening id => exact h.elim
  | working id subject stage => exact h.elim
  | releasing tasks => exact h.elim
  | _ => exact trivial

/-- **A move of a member** that holds what it takes to be in its hands: so it is afterwards, and what
others hold is spared. -/
theorem MemberMove.holds {r : Member × TeamRun} (h : MemberMove input m run r)
    (hm : m.doing.Holds run.db m.member) :
    r.1.doing.Holds r.2.db m.member ∧ Spares m.member run.db r.2.db := by
  cases h with
  | free hname htracker hfree => exact ⟨hfree.holds, .refl _ _⟩
  | scan => exact ⟨trivial, .refl _ _⟩
  | lost hdoing => exact ⟨trivial, .refl _ _⟩
  | won hdoing hclaim => exact claim_won hclaim
  | start hdoing hstart =>
    rw [hdoing] at hm
    exact start_holds hm hstart
  | opened hdoing =>
    rw [hdoing] at hm
    exact ⟨hm, .refl _ _⟩
  | work aborted hdoing hwork =>
    rw [hdoing] at hm
    rw [hwork.graph]
    exact ⟨hm, .refl _ _⟩
  | complete hdoing hcomplete =>
    rw [hdoing] at hm
    exact ⟨trivial, complete_spares hm hcomplete⟩
  | leave => exact ⟨holds_leaving _ _, .refl _ _⟩
  | @release task tasks _ _ hdoing hrelease =>
    rw [hdoing] at hm
    obtain ⟨hnodup, hheld⟩ := hm
    obtain ⟨hid, hids⟩ := List.nodup_cons.mp hnodup
    obtain ⟨⟨s, hs⟩, hrest⟩ := List.forall_mem_cons.mp hheld
    obtain ⟨hspares, hothers⟩ := release_spares hs hrelease
    refine ⟨⟨hids, fun t ht ↦ ?_⟩, hspares⟩
    obtain ⟨s', hs'⟩ := hrest t ht
    refine ⟨s', hothers t.id s' ?_ hs'⟩
    intro heq
    exact hid (heq ▸ List.mem_map_of_mem ht)

end Moves

/-! ## Runs -/

/-- The members have different names, which the lead drew, and each holds what it takes to be in its
hands. -/
structure TeamRun.Holds (ids : IdSource) (run : TeamRun) : Prop where
  distinct : ∀ (i j : ℕ) (m m' : Member), run.members[i]? = some m → run.members[j]? = some m' →
    m.member = m'.member → i = j
  drawn : ∀ (k : ℕ) (m : Member), run.members[k]? = some m →
    ∃ n < run.lead.drawn, m.member = ids.next n "mem"
  holds : ∀ (k : ℕ) (m : Member), run.members[k]? = some m → m.doing.Holds run.db m.member

variable {ids : IdSource} {run run' : TeamRun}

/-- The members go on as they are, or are dead, and what is in somebody's hands stays there. -/
theorem TeamRun.Holds.others (h : run.Holds ids)
    (hmembers : ∀ (k : ℕ) (m' : Member), run'.members[k]? = some m' →
      ∃ m, run.members[k]? = some m ∧ SameOrDead m m')
    (hdb : ∀ id τ, tenure run.db id = some τ → tenure run'.db id = some τ)
    (hdrawn : run.lead.drawn ≤ run'.lead.drawn) : run'.Holds ids where
  distinct i j m m' hi hj heq := by
    obtain ⟨m₁, hi, hm₁, -⟩ := hmembers i m hi
    obtain ⟨m₂, hj, hm₂, -⟩ := hmembers j m' hj
    exact h.distinct i j m₁ m₂ hi hj (hm₁.symm.trans (heq.trans hm₂))
  drawn k m' hk := by
    obtain ⟨m, hk, hm, -⟩ := hmembers k m' hk
    obtain ⟨n, hn, hname⟩ := h.drawn k m hk
    exact ⟨n, hn.trans_le hdrawn, hm.trans hname⟩
  holds k m' hk := by
    obtain ⟨m, hk, hm, -, hsame | hdead⟩ := hmembers k m' hk
    · rw [hm, hsame]
      exact (h.holds k m hk).imp fun id s ⟨c, hc⟩ ↦ ⟨c, hdb id _ hc⟩
    · rw [hdead]
      exact trivial

theorem TeamRun.Holds.launch (h : run.Holds ids) {lead : Lead}
    (hdrawn : run.lead.drawn < lead.drawn) :
    TeamRun.Holds ids
      { run with lead, members := run.members ++ [.fresh (ids.next run.lead.drawn "mem")] } := by
  -- The name is drawn after the names of the others.
  have hfresh : ∀ (k : ℕ) (m : Member), run.members[k]? = some m →
      m.member ≠ ids.next run.lead.drawn "mem" := by
    intro k m hk heq
    obtain ⟨n, hn, hname⟩ := h.drawn k m hk
    exact hn.ne (ids.fresh "mem" (hname.symm.trans heq))
  refine ⟨fun i j m m' hi hj heq ↦ ?_, fun k m hk ↦ ?_, fun k m hk ↦ ?_⟩
  · rcases getElem?_concat hi with hi | ⟨rfl, rfl⟩ <;> rcases getElem?_concat hj with hj | ⟨rfl, rfl⟩
    · exact h.distinct i j m m' hi hj heq
    · exact absurd heq (hfresh i m hi)
    · exact absurd heq.symm (hfresh j m' hj)
    · rfl
  · rcases getElem?_concat hk with hk | ⟨rfl, rfl⟩
    · obtain ⟨n, hn, hname⟩ := h.drawn k m hk
      exact ⟨n, hn.trans hdrawn, hname⟩
    · exact ⟨run.lead.drawn, hdrawn, rfl⟩
  · rcases getElem?_concat hk with hk | ⟨rfl, rfl⟩
    · exact h.holds k m hk
    · exact trivial

theorem TeamRun.Holds.step (h : run.Holds ids) {k : ℕ} {input : StepInput} {m : Member}
    (hm : run.members[k]? = some m) {r : Member × TeamRun} (hmove : MemberMove input m run r) :
    TeamRun.Holds ids { r.2 with members := run.members.set k r.1 } := by
  obtain ⟨hholds, hspares⟩ := hmove.holds (h.holds k m hm)
  have hname := hmove.member
  -- Whoever is at a place afterwards has the name of who was there before.
  have hbefore : ∀ (j : ℕ) (x : Member), (run.members.set k r.1)[j]? = some x →
      ∃ y, run.members[j]? = some y ∧ x.member = y.member := by
    intro j x hj
    rcases getElem?_set_cases hj with ⟨rfl, rfl⟩ | ⟨-, hj⟩
    · exact ⟨m, hm, hname⟩
    · exact ⟨x, hj, rfl⟩
  refine ⟨fun i j x y hi hj heq ↦ ?_, fun j x hj ↦ ?_, fun j x hj ↦ ?_⟩
  · obtain ⟨x', hi, hx⟩ := hbefore i x hi
    obtain ⟨y', hj, hy⟩ := hbefore j y hj
    exact h.distinct i j x' y' hi hj (hx.symm.trans (heq.trans hy))
  · obtain ⟨x', hj, hx⟩ := hbefore j x hj
    obtain ⟨n, hn, hnext⟩ := h.drawn j x' hj
    exact ⟨n, hn.trans_eq (congrArg Lead.drawn hmove.others.2.symm), hx.trans hnext⟩
  · rcases getElem?_set_cases hj with ⟨rfl, rfl⟩ | ⟨hne, hj⟩
    · exact hname.symm ▸ hholds
    · refine (h.holds j x hj).imp fun id s hs ↦ hs.spared hspares ?_
      exact fun heq ↦ hne (h.distinct j k x m hj hm heq)

/-- **Every move** leaves in the hands of a member what it takes to be there. -/
theorem TeamRun.Holds.move {setup : TeamSetup} (h : run.Holds setup.ids) (move : TeamMove) :
    (run.move setup move).Holds setup.ids := by
  have hsame : ∀ (k : ℕ) (m : Member), run.members[k]? = some m →
      ∃ m', run.members[k]? = some m' ∧ SameOrDead m' m :=
    fun _ m hk ↦ ⟨m, hk, rfl, rfl, .inl rfl⟩
  rcases move_cases setup run move with ⟨k, input, m, r, -, hm, hmove, heq⟩ | hlead
  · rw [heq]
    exact h.step hm hmove
  · revert hlead
    generalize run.move setup move = run'
    intro hlead
    cases hlead with
    | serve hlead hbus => exact h.others hsame (fun _ _ hτ ↦ hτ) hlead.drawn
    | create hphase hcreate => exact h.others hsame (fun _ _ ↦ create_keeps hcreate) le_rfl
    | created hphase => exact h.others hsame (fun _ _ hτ ↦ hτ) le_rfl
    | launch hphase => exact h.launch (Nat.lt_add_of_pos_right (Nat.succ_pos 4))
    | lose hlead hlength hmembers => exact h.others hmembers (fun _ _ hτ ↦ hτ) hlead.drawn

theorem holds_start (ids : IdSource) (db : TaskDb) (bus : List BusEnvelope)
    (results : List TeamResult) (specs : List TaskSpec) (drawn : ℕ) :
    (TeamRun.start db bus results specs drawn).Holds ids := by
  refine ⟨?_, ?_, ?_⟩
  · rintro i j m m' ⟨⟩
  · rintro k m ⟨⟩
  · rintro k m ⟨⟩

end QwenHarness.Cli
