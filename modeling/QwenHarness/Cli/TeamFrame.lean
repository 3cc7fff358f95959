import QwenHarness.Cli.TeamSteps
import QwenHarness.Tasks.Extent

/-!
# What a team run touches

A run creates its tasks in a store that other runs and other people use as well. Its members look for
tasks in the whole of it, and a number that is no position yet is taken for an id of the store. So a
run keeps to itself if every number it comes to is a position before its own, and if nobody left a
task that the members could take or that is held under one of their names.
-/

namespace QwenHarness.Cli

open Tasks Teams TaskDb

/-! ## What is asked of a run -/

/-- The positions a spec names. -/
def TaskSpec.positions (spec : TaskSpec) : List ℕ := spec.blockedBy.getD []

/-- Every task that was created waits for the tasks created for the positions it names, and for no
other. -/
def BlockedAsNamed (specs : List TaskSpec) (run : TeamRun) : Prop :=
  ∀ (i : ℕ) (spec : TaskSpec) (id : ℤ), specs[i]? = some spec →
    run.lead.createdIds[i]? = some id → ∀ b, run.db.board.waits b id ↔
      ∃ k, k + 1 ∈ spec.positions ∧ run.lead.createdIds[k]? = some b

/-- Everything the run wrote to the log of the store is about tasks that it created. -/
def TouchesOwn (db : TaskDb) (run : TeamRun) : Prop :=
  ∃ records, run.db.events = db.events ++ records ∧
    ∀ record ∈ records, record.taskId ∈ run.lead.createdIds

def KeepsToItself (db : TaskDb) (specs : List TaskSpec) (run : TeamRun) : Prop :=
  ((∃ e, run.lead.phase = .refused e) ∨ BlockedAsNamed specs run) ∧ TouchesOwn db run

/-! ## When it does -/

/-- The number leads to a task, when this many were created. -/
def Leads (db : TaskDb) (i n : ℕ) : Prop :=
  (1 ≤ n ∧ n ≤ i) ∨ (∃ t, db.getTask n = some t ∧ t.status ≠ .deleted) ∨
    db.nextId ≤ n ∧ (n : ℤ) < db.nextId + i

/-- The spec is not refused, when this many were created. -/
structure Acceptable (db : TaskDb) (i : ℕ) (spec : TaskSpec) : Prop where
  subject : 1 ≤ utf16Length spec.subject
  leads : ∀ n ∈ spec.positions, Leads db i n

/-- No spec up to here is refused. -/
def AcceptableTo (db : TaskDb) (specs : List TaskSpec) (i : ℕ) : Prop :=
  ∀ (j : ℕ) (spec : TaskSpec), j ≤ i → specs[j]? = some spec → Acceptable db j spec

/-- The name of a member, by the number of those launched before. -/
def TeamSetup.name (setup : TeamSetup) (drawn k : ℕ) : String :=
  setup.ids.next (drawn + 5 * k) "mem"

/-- A spec that is not refused names positions before its own. If none is refused, and members are
launched, then nobody left a task that can be claimed, or that is held under the name of one. -/
structure Apart (setup : TeamSetup) (db : TaskDb) (specs : List TaskSpec) (drawn : ℕ) : Prop where
  backward : ∀ (i : ℕ) (spec : TaskSpec), specs[i]? = some spec → AcceptableTo db specs i →
    ∀ n ∈ spec.positions, 1 ≤ n ∧ n ≤ i
  unclaimed : (∀ i, AcceptableTo db specs i) → 0 < setup.members → claimable db = []
  unheld : (∀ i, AcceptableTo db specs i) → ∀ k < setup.members,
    (TaskGraph.list db false).filter (isHeldBy (setup.name drawn k)) = []

/-! ## Creating -/

theorem resolve_of_lt {createdIds : List ℤ} {k : ℕ} {b : ℤ} (h : createdIds[k]? = some b) :
    resolve createdIds (k + 1) = b := by
  rw [resolve, h, Option.getD_some]

theorem resolve_of_not_lt {createdIds : List ℤ} {n : ℕ} (h : ¬ (1 ≤ n ∧ n ≤ createdIds.length)) :
    resolve createdIds n = n := by
  cases n with
  | zero => rfl
  | succ k =>
    have hlt : ¬ k < createdIds.length := fun hk ↦ h ⟨Nat.succ_pos k, hk⟩
    rw [resolve, List.getElem?_eq_none (not_lt.mp hlt), Option.getD_none]

theorem parse_createInput {createdIds : List ℤ} {spec : TaskSpec} {parsed : ParsedTaskInput}
    (h : (createInput createdIds spec).parse = some parsed) :
    1 ≤ utf16Length spec.subject ∧
      parsed.blockedBy = spec.positions.map (resolve createdIds) := by
  rw [CreateTaskInput.parse] at h
  split_ifs at h with hvalid
  cases h
  refine ⟨hvalid.1, ?_⟩
  rw [createInput]
  dsimp only
  split_ifs with hempty
  · exact hempty.symm
  · rfl

variable {db : TaskDb} {specs : List TaskSpec} {setup : TeamSetup} {drawn : ℕ} {run run' : TeamRun}

/-- What is true of the tasks of a run at every time. -/
structure TeamRun.Creates (db : TaskDb) (specs : List TaskSpec) (run : TeamRun) : Prop where
  ids : ∀ (i : ℕ) (a : ℤ), run.lead.createdIds[i]? = some a →
    a = db.nextId + i ∧ db.board.state a = none ∧ run.db.board.state a ≠ none
  nextId : run.db.nextId = db.nextId + run.lead.createdIds.length
  within : Within (· ∈ run.lead.createdIds) db run.db
  few : run.lead.createdIds.length ≤ specs.length
  accepted : ∀ (i : ℕ) (spec : TaskSpec), i < run.lead.createdIds.length → specs[i]? = some spec →
    Acceptable db i spec
  blocked : BlockedAsNamed specs run

theorem TeamRun.Creates.mem_ids (h : run.Creates db specs) {a : ℤ}
    (ha : a ∈ run.lead.createdIds) :
    db.nextId ≤ a ∧ a < db.nextId + run.lead.createdIds.length ∧ db.board.state a = none ∧
      run.db.board.state a ≠ none := by
  obtain ⟨i, hi⟩ := List.mem_iff_getElem?.mp ha
  obtain ⟨hlt, -⟩ := List.getElem?_eq_some_iff.mp hi
  obtain ⟨rfl, hbefore, hafter⟩ := h.ids i a hi
  exact ⟨by omega, by omega, hbefore, hafter⟩

/-- What waits for a task of the run is a task of the run. -/
theorem TeamRun.Creates.waits (h : run.Creates db specs) (hjoined : Joined db) {a b : ℤ}
    (hb : b ∈ run.lead.createdIds) (hwaits : run.db.board.waits b a) :
    a ∈ run.lead.createdIds := by
  by_contra ha
  have hbefore := (h.within.waits b a ha).mp hwaits
  exact (hjoined b a hbefore).1 (h.mem_ids hb).2.2.1

/-- Tasks are moved, and none is created. -/
theorem TeamRun.Creates.of_moves (h : run.Creates db specs)
    (hcreated : run'.lead.createdIds = run.lead.createdIds)
    (hmoves : Moves (· ∈ run.lead.createdIds) run.db run'.db) : run'.Creates db specs where
  ids i a hi := by
    rw [hcreated] at hi
    obtain ⟨hid, hbefore, hafter⟩ := h.ids i a hi
    exact ⟨hid, hbefore, hmoves.known a hafter⟩
  nextId := by rw [hmoves.nextId, h.nextId, hcreated]
  within := by
    rw [hcreated]
    exact h.within.trans hmoves.toWithin
  few := hcreated ▸ h.few
  accepted i spec hi := h.accepted i spec (hcreated ▸ hi)
  blocked i spec id hspec hid b := by
    rw [hcreated] at hid ⊢
    rw [hmoves.edges]
    exact h.blocked i spec id hspec hid b

section Create

variable {now : ℕ → ℤ} {spec : TaskSpec} {task : Task} {records : List TaskEventRecord}
  {db' : TaskDb}

/-- A spec that is not refused is acceptable. -/
theorem TeamRun.Creates.acceptable (h : run.Creates db specs)
    (hcreate : TaskGraph.create now leadActor run.db (createInput run.lead.createdIds spec) =
      (.ok (task, records), db')) : Acceptable db run.lead.createdIds.length spec := by
  obtain ⟨parsed, hparse, hrefs, -⟩ := TaskGraph.create_ok hcreate
  obtain ⟨hsubject, hblockers⟩ := parse_createInput hparse
  refine ⟨hsubject, fun n hn ↦ ?_⟩
  by_cases hback : 1 ≤ n ∧ n ≤ run.lead.createdIds.length
  · exact .inl hback
  have hmem : (n : ℤ) ∈ distinct parsed.blockedBy := by
    rw [mem_distinct, hblockers, ← resolve_of_not_lt hback]
    exact List.mem_map_of_mem hn
  obtain ⟨t, ht, halive⟩ := hrefs n hmem
  refine .inr ?_
  by_cases hown : (n : ℤ) ∈ run.lead.createdIds
  · obtain ⟨hle, hlt, -⟩ := h.mem_ids hown
    exact .inr ⟨hle, hlt⟩
  · have hstate := h.within.state n hown
    rw [state_of_getTask ht] at hstate
    obtain ⟨t₀, ht₀, hs, -⟩ := state_eq_some.mp hstate.symm
    exact .inl ⟨t₀, ht₀, hs ▸ halive⟩

/-- **A creation** keeps what is true of the tasks of the run. -/
theorem TeamRun.Creates.create (h : run.Creates db specs) (hjoined : Joined db)
    (hapart : Apart setup db specs drawn)
    (hspec : specs[run.lead.createdIds.length]? = some spec)
    (hcreate : TaskGraph.create now leadActor run.db (createInput run.lead.createdIds spec) =
      (.ok (task, records), db')) {lead : Lead}
    (hcreated : lead.createdIds = run.lead.createdIds ++ [task.id]) :
    TeamRun.Creates db specs { run with db := db', lead } := by
  have hacceptable := h.acceptable hcreate
  have hwithin := TaskGraph.within_create hcreate
  obtain ⟨parsed, hparse, -, -, hid, hemits⟩ := TaskGraph.create_ok hcreate
  obtain ⟨-, hblockers⟩ := parse_createInput hparse
  -- The id is new to the run and to the store.
  have hnone : run.db.board.state task.id = none := by
    rcases hemits with - | ⟨hemit, -⟩
    have hfresh := state_of_emit_created hemit
    rw [hid]
    exact hfresh
  have hnew : task.id ∉ run.lead.createdIds := fun hmem ↦ (h.mem_ids hmem).2.2.2 hnone
  have hforeign : db.board.state task.id = none := (h.within.state task.id hnew).symm.trans hnone
  have haccepted : ∀ (j : ℕ) (spec' : TaskSpec), j < run.lead.createdIds.length + 1 → specs[j]? = some spec' →
      Acceptable db j spec' := by
    intro j spec' hj hspec'
    rcases Nat.lt_succ_iff_lt_or_eq.mp hj with hj | rfl
    · exact h.accepted j spec' hj hspec'
    · obtain rfl := Option.some.inj (hspec.symm.trans hspec')
      exact hacceptable
  have hbackward : ∀ (j : ℕ) (spec' : TaskSpec), j < run.lead.createdIds.length + 1 → specs[j]? = some spec' →
      ∀ n ∈ spec'.positions, 1 ≤ n ∧ n ≤ j := fun j spec' hj hspec' ↦
    hapart.backward j spec' hspec' fun i s hi ↦ haccepted i s (by omega)
  have hwaits : ∀ b, db'.board.waits b task.id ↔ b ∈ parsed.blockedBy := by
    intro b
    refine (waits_single hemits b task.id).trans ((or_iff_right ?_).trans ?_)
    · intro hbefore
      exact (hjoined b _ ((h.within.waits b _ hnew).mp hbefore)).2 hforeign
    · rw [TaskEventInput.edges, List.mem_map, hid, ← mem_distinct]
      simp
  refine ⟨fun i a hi ↦ ?_, ?_, ?_, ?_, ?_, ?_⟩
  · replace hi : (run.lead.createdIds ++ [task.id])[i]? = some a := hcreated ▸ hi
    rcases getElem?_concat hi with hi | ⟨rfl, rfl⟩
    · obtain ⟨heq, hbefore, hafter⟩ := h.ids i a hi
      exact ⟨heq, hbefore, hwithin.known a hafter⟩
    · refine ⟨hid.trans h.nextId, hforeign, ?_⟩
      have hstate := congrFun (congrArg Board.state hemits.board_single) task.id
      rw [hid] at hstate ⊢
      exact ne_of_eq_of_ne (hstate.trans (Function.update_self ..)) (Option.some_ne_none _)
  · have hnext := hemits.nextId
    dsimp only at hnext ⊢
    rw [hnext, h.nextId, hcreated, List.length_append, List.length_singleton]
    omega
  · dsimp only
    rw [hcreated]
    refine .trans (h.within.mono fun a ↦ List.mem_append_left _) (hwithin.mono ?_)
    rintro a rfl
    exact List.mem_append_right _ (List.mem_singleton_self _)
  · dsimp only
    rw [hcreated, List.length_append, List.length_singleton]
    exact (List.getElem?_eq_some_iff.mp hspec).1
  · dsimp only
    rw [hcreated, List.length_append, List.length_singleton]
    exact haccepted
  · intro j spec' a hspec' ha b
    replace ha : (run.lead.createdIds ++ [task.id])[j]? = some a := hcreated ▸ ha
    dsimp only
    rw [hcreated]
    -- A position before this one leads to the same task as before.
    have hsame : ∀ k, k < run.lead.createdIds.length →
        ((run.lead.createdIds ++ [task.id])[k]? = some b ↔ run.lead.createdIds[k]? = some b) :=
      fun k hk ↦ by rw [List.getElem?_append_left hk]
    rcases getElem?_concat ha with ha | ⟨rfl, rfl⟩
    · obtain ⟨hj, -⟩ := List.getElem?_eq_some_iff.mp ha
      have hne : a ≠ task.id := by
        rintro rfl
        exact hnew (List.mem_of_getElem? ha)
      rw [hwithin.waits b a hne, h.blocked j spec' a hspec' ha b]
      refine exists_congr fun k ↦ and_congr_right fun hk ↦ (hsame k ?_).symm
      have hle := (hbackward j spec' (by omega) hspec' _ hk).2
      omega
    · obtain rfl := Option.some.inj (hspec.symm.trans hspec')
      rw [hwaits b, hblockers, List.mem_map]
      constructor
      · rintro ⟨n, hn, rfl⟩
        obtain ⟨hpos, hle⟩ := hbackward _ spec (Nat.lt_succ_self _) hspec n hn
        obtain ⟨k, rfl⟩ := Nat.exists_eq_add_of_le' hpos
        have hget := List.getElem?_eq_getElem (l := run.lead.createdIds) (i := k) (by omega)
        refine ⟨k, hn, ?_⟩
        rw [List.getElem?_append_left (by omega), hget, resolve_of_lt hget]
      · rintro ⟨k, hk, hb⟩
        have hle := (hbackward _ spec (Nat.lt_succ_self _) hspec _ hk).2
        exact ⟨k + 1, hk, resolve_of_lt ((hsame k hle).mp hb)⟩

end Create

/-! ## The members -/

/-- What the process takes for its own is of this kind. -/
def Doing.Takes (S : ℤ → Prop) : Doing → Prop
  | .starting id | .opening id | .working id _ _ => S id
  | .claiming tasks | .releasing tasks => ∀ t ∈ tasks, S t.id
  | _ => True

theorem Doing.Free.takes {S : ℤ → Prop} {doing : Doing} (h : doing.Free) : doing.Takes S := by
  cases doing with
  | starting id => exact h.elim
  | opening id => exact h.elim
  | working id subject stage => exact h.elim
  | claiming tasks => exact h.elim
  | releasing tasks => exact h.elim
  | _ => exact trivial

/-- **A move of a member** that can claim tasks of a kind only, and holds no others, moves tasks of
this kind. -/
theorem MemberMove.takes {S : ℤ → Prop} {input : StepInput} {m : Member} {r : Member × TeamRun}
    (h : MemberMove input m run r) (hm : m.doing.Takes S)
    (hclaimable : ∀ t ∈ claimable run.db, S t.id)
    (hheld : ∀ t ∈ (TaskGraph.list run.db false).filter (isHeldBy m.member), S t.id)
    (hwaits : ∀ a b, S b → run.db.board.waits b a → S a) :
    r.1.doing.Takes S ∧ Moves S run.db r.2.db := by
  cases h with
  | free hname htracker hfree => exact ⟨hfree.takes, .refl S _⟩
  | scan => exact ⟨hclaimable, .refl S _⟩
  | opened hdoing =>
    rw [hdoing] at hm
    exact ⟨hm, .refl S _⟩
  | leave => exact ⟨hheld, .refl S _⟩
  | lost hdoing =>
    rw [hdoing] at hm
    exact ⟨(List.forall_mem_cons.mp hm).2, .refl S _⟩
  | won hdoing hclaim =>
    rw [hdoing] at hm
    have hid := (List.forall_mem_cons.mp hm).1
    refine ⟨hid, (TaskGraph.moves_claim hclaim).mono ?_⟩
    rintro _ rfl
    exact hid
  | start hdoing hstart =>
    rw [hdoing] at hm
    refine ⟨hm, (TaskGraph.moves_start hstart).mono ?_⟩
    rintro _ rfl
    exact hm
  | work aborted hdoing hwork =>
    rw [hdoing] at hm
    rw [hwork.graph]
    exact ⟨hm, .refl S _⟩
  | complete hdoing hcomplete =>
    rw [hdoing] at hm
    refine ⟨trivial, (TaskGraph.moves_complete hcomplete).mono ?_⟩
    rintro a (rfl | ha)
    · exact hm
    · exact hwaits a _ hm ha
  | release hdoing hrelease =>
    rw [hdoing] at hm
    obtain ⟨hid, hids⟩ := List.forall_mem_cons.mp hm
    refine ⟨hids, (TaskGraph.moves_release hrelease).mono ?_⟩
    rintro _ rfl
    exact hid

/-! ## The launch -/

/-- The members are launched after the last task was created, and named one after the other. -/
structure TeamRun.Launched (setup : TeamSetup) (specs : List TaskSpec) (drawn : ℕ) (run : TeamRun) :
    Prop where
  creating : ∀ todo, run.lead.phase = .creating todo → run.lead.drawn = drawn ∧
    run.members = [] ∧ specs.drop run.lead.createdIds.length = todo
  launching : ∀ left, run.lead.phase = .launching left →
    run.lead.drawn = drawn + 5 * run.members.length ∧ run.members.length + left = setup.members ∧
      specs.length ≤ run.lead.createdIds.length
  named : ∀ (k : ℕ) (m : Member), run.members[k]? = some m →
    m.member = setup.name drawn k ∧ k < setup.members ∧ specs.length ≤ run.lead.createdIds.length

/-- The members have the names they had. -/
theorem TeamRun.Launched.later (h : run.Launched setup specs drawn)
    (hlead : run'.lead = run.lead ∧ run'.members.length = run.members.length ∨
      run'.lead.createdIds = run.lead.createdIds ∧ run'.lead.phase.Later)
    (hmembers : ∀ (k : ℕ) (m' : Member), run'.members[k]? = some m' →
      ∃ m, run.members[k]? = some m ∧ m'.member = m.member) :
    run'.Launched setup specs drawn := by
  have hcreated : run'.lead.createdIds = run.lead.createdIds := by
    rcases hlead with ⟨hsame, -⟩ | ⟨hcreated, -⟩
    · rw [hsame]
    · exact hcreated
  refine ⟨fun todo hphase ↦ ?_, fun left hphase ↦ ?_, fun k m' hk ↦ ?_⟩
  · rcases hlead with ⟨hsame, hlength⟩ | ⟨-, hlater⟩
    · rw [hsame] at hphase ⊢
      obtain ⟨hdrawn, hnil, hdrop⟩ := h.creating todo hphase
      rw [hnil, List.length_nil] at hlength
      exact ⟨hdrawn, List.length_eq_zero_iff.mp hlength, hdrop⟩
    · rw [hphase] at hlater
      exact hlater.elim
  · rcases hlead with ⟨hsame, hlength⟩ | ⟨-, hlater⟩
    · rw [hsame] at hphase ⊢
      rw [hlength]
      exact h.launching left hphase
    · rw [hphase] at hlater
      exact hlater.elim
  · obtain ⟨m, hm, hname⟩ := hmembers k m' hk
    rw [hname, hcreated]
    exact h.named k m hm

/-- A move of the lead. -/
theorem LeadMove.launched (h : LeadMove setup.ids setup.members run run')
    (hrun : run.Launched setup specs drawn) : run'.Launched setup specs drawn := by
  have hsame : ∀ (k : ℕ) (m' : Member), run.members[k]? = some m' →
      ∃ m, run.members[k]? = some m ∧ m'.member = m.member := fun _ m' hk ↦ ⟨m', hk, rfl⟩
  cases h with
  | serve hlead hbus =>
    refine hrun.later ?_ hsame
    exact hlead.phase.imp (fun heq ↦ ⟨heq, rfl⟩) fun hlater ↦ ⟨hlead.createdIds, hlater⟩
  | lose hlead hlength hmembers =>
    refine hrun.later ?_ fun k m' hk ↦ ?_
    · exact hlead.phase.imp (fun heq ↦ ⟨heq, hlength⟩) fun hlater ↦ ⟨hlead.createdIds, hlater⟩
    · obtain ⟨m, hm, hname, -⟩ := hmembers k m' hk
      exact ⟨m, hm, hname⟩
  | create hphase hcreate =>
    obtain ⟨hdrawn, hnil, hdrop⟩ := hrun.creating _ hphase
    refine ⟨fun todo htodo ↦ ⟨hdrawn, hnil, ?_⟩, by rintro _ ⟨⟩, fun k m hk ↦ ?_⟩
    · cases htodo
      rw [List.length_append, List.length_singleton, ← List.tail_drop, hdrop, List.tail_cons]
    · rw [hnil] at hk
      cases hk
  | created hphase =>
    obtain ⟨hdrawn, hnil, hdrop⟩ := hrun.creating _ hphase
    refine ⟨by rintro _ ⟨⟩, fun left hleft ↦ ?_, fun k m hk ↦ ?_⟩
    · cases hleft
      rw [hnil]
      exact ⟨hdrawn, Nat.zero_add _, List.drop_eq_nil_iff.mp hdrop⟩
    · rw [hnil] at hk
      cases hk
  | launch hphase =>
    obtain ⟨hdrawn, hlength, hcreated⟩ := hrun.launching _ hphase
    refine ⟨by rintro _ ⟨⟩, fun left hleft ↦ ?_, fun k m hk ↦ ?_⟩
    · cases hleft
      rw [List.length_append, List.length_singleton]
      refine ⟨?_, by omega, hcreated⟩
      dsimp only
      omega
    · rcases getElem?_concat hk with hk | ⟨rfl, rfl⟩
      · exact hrun.named k m hk
      · exact ⟨congrArg (setup.ids.next · "mem") hdrawn, by omega, hcreated⟩

/-! ## Runs -/

/-- What is true at every time of a run that keeps to itself. -/
structure TeamRun.Keeps (setup : TeamSetup) (db : TaskDb) (specs : List TaskSpec) (drawn : ℕ)
    (run : TeamRun) : Prop where
  creates : run.Creates db specs
  launched : run.Launched setup specs drawn
  takes : ∀ (k : ℕ) (m : Member), run.members[k]? = some m →
    m.doing.Takes (· ∈ run.lead.createdIds)

theorem keeps_start (setup : TeamSetup) (db : TaskDb) (bus : List BusEnvelope)
    (results : List TeamResult) (specs : List TaskSpec) (drawn : ℕ) :
    (TeamRun.start db bus results specs drawn).Keeps setup db specs drawn where
  creates :=
    { ids := by rintro i a ⟨⟩
      nextId := (add_zero db.nextId).symm
      within := .refl _ db
      few := Nat.zero_le _
      accepted := by rintro i spec ⟨⟩
      blocked := by rintro i spec id - ⟨⟩ }
  launched :=
    { creating := fun todo hphase ↦ by
        cases hphase
        exact ⟨rfl, rfl, rfl⟩
      launching := by rintro left ⟨⟩
      named := by rintro k m ⟨⟩ }
  takes := by rintro k m ⟨⟩

/-- What a member finds in the store was created by the run. -/
theorem TeamRun.Keeps.finds (h : run.Keeps setup db specs drawn)
    (hapart : Apart setup db specs drawn) {k : ℕ} {m : Member} (hm : run.members[k]? = some m) :
    (∀ t ∈ claimable run.db, t.id ∈ run.lead.createdIds) ∧
      ∀ t ∈ (TaskGraph.list run.db false).filter (isHeldBy m.member),
        t.id ∈ run.lead.createdIds := by
  obtain ⟨hname, hk, hall⟩ := h.launched.named k m hm
  have haccepted : ∀ i, AcceptableTo db specs i := by
    intro i j spec _ hspec
    have hj := (List.getElem?_eq_some_iff.mp hspec).1
    exact h.creates.accepted j spec (hj.trans_le hall) hspec
  constructor
  · intro t ht
    by_contra hid
    obtain ⟨hmem, hfree⟩ := List.mem_filter.mp ht
    obtain ⟨before, hbefore, hs, ho⟩ := h.creates.within.mem_list hmem hid
    have hlisted : before ∈ claimable db := by
      refine List.mem_filter.mpr ⟨hbefore, ?_⟩
      rw [hs, ho]
      exact hfree
    rw [hapart.unclaimed haccepted (Nat.zero_lt_of_lt hk)] at hlisted
    cases hlisted
  · intro t ht
    by_contra hid
    obtain ⟨hmem, hheld⟩ := List.mem_filter.mp ht
    obtain ⟨before, hbefore, hs, ho⟩ := h.creates.within.mem_list hmem hid
    have hlisted : before ∈ (TaskGraph.list db false).filter (isHeldBy m.member) := by
      refine List.mem_filter.mpr ⟨hbefore, ?_⟩
      rw [isHeldBy, hs, ho]
      exact hheld
    rw [hname, hapart.unheld haccepted k hk] at hlisted
    cases hlisted

/-- **Every move** of a run that is apart keeps it to itself. -/
theorem TeamRun.Keeps.move (h : run.Keeps setup db specs drawn) (hjoined : Joined db)
    (hapart : Apart setup db specs drawn) (move : TeamMove) :
    (run.move setup move).Keeps setup db specs drawn := by
  rcases move_cases setup run move with ⟨k, input, m, r, -, hm, hmove, heq⟩ | hlead
  · rw [heq]
    obtain ⟨hclaimable, hheld⟩ := h.finds hapart hm
    obtain ⟨htakes, hmoves⟩ := hmove.takes (h.takes k m hm) hclaimable hheld
      fun a b ↦ h.creates.waits hjoined
    have hothers : r.2.lead = run.lead := hmove.others.2
    refine ⟨h.creates.of_moves (congrArg Lead.createdIds hothers) hmoves,
      h.launched.later (.inl ⟨hothers, List.length_set⟩) fun j x hj ↦ ?_, fun j x hj ↦ ?_⟩
    · rcases getElem?_set_cases hj with ⟨rfl, rfl⟩ | ⟨-, hj⟩
      · exact ⟨m, hm, hmove.member⟩
      · exact ⟨x, hj, rfl⟩
    · dsimp only
      rw [hothers]
      rcases getElem?_set_cases hj with ⟨rfl, rfl⟩ | ⟨-, hj⟩
      · exact htakes
      · exact h.takes j x hj
  · have hlaunched := hlead.launched h.launched
    revert hlaunched hlead
    generalize run.move setup move = run'
    intro hlead hlaunched
    have hmoves : Moves (· ∈ run.lead.createdIds) run.db run.db := .refl _ _
    cases hlead with
    | serve hlead hbus =>
      refine ⟨h.creates.of_moves hlead.createdIds hmoves, hlaunched, ?_⟩
      dsimp only
      rw [hlead.createdIds]
      exact h.takes
    | created hphase => exact ⟨h.creates.of_moves rfl hmoves, hlaunched, h.takes⟩
    | launch hphase =>
      refine ⟨h.creates.of_moves rfl hmoves, hlaunched, fun j x hj ↦ ?_⟩
      rcases getElem?_concat hj with hj | ⟨-, rfl⟩
      · exact h.takes j x hj
      · exact trivial
    | lose hlead hlength hmembers =>
      refine ⟨h.creates.of_moves hlead.createdIds hmoves, hlaunched, fun j x hj ↦ ?_⟩
      obtain ⟨m, hm, -, -, hsame | hdead⟩ := hmembers j x hj
      · dsimp only
        rw [hsame, hlead.createdIds]
        exact h.takes j m hm
      · rw [hdead]
        exact trivial
    | @create spec todo now r db' hphase hcreate =>
      obtain ⟨-, hnil, hdrop⟩ := h.launched.creating _ hphase
      have hspec : specs[run.lead.createdIds.length]? = some spec := by
        have hhead := congrArg (·[0]?) hdrop
        rwa [List.getElem?_drop] at hhead
      refine ⟨h.creates.create hjoined hapart hspec hcreate rfl, hlaunched, fun j x hj ↦ ?_⟩
      rw [hnil] at hj
      cases hj

theorem TeamRun.Keeps.moves (h : run.Keeps setup db specs drawn) (hjoined : Joined db)
    (hapart : Apart setup db specs drawn) (moves : List TeamMove) :
    (run.moves setup moves).Keeps setup db specs drawn := by
  induction moves generalizing run with
  | nil => exact h
  | cons move moves ih => exact ih (h.move hjoined hapart move)

theorem TeamRun.Keeps.keepsToItself (h : run.Keeps setup db specs drawn) :
    KeepsToItself db specs run := ⟨.inr h.creates.blocked, h.creates.within.events⟩

/-- **A run that is apart from what it finds in the store** keeps to itself: its tasks wait for one
another as the specs say, and no other task is touched. -/
theorem keepsToItself_of_apart (calls : List TaskCall) (setup : TeamSetup)
    (bus : List BusEnvelope) (results : List TeamResult) (specs : List TaskSpec) (drawn : ℕ)
    (h : Apart setup (runAll calls TaskDb.empty) specs drawn) (moves : List TeamMove) :
    KeepsToItself (runAll calls TaskDb.empty) specs
      ((TeamRun.start (runAll calls TaskDb.empty) bus results specs drawn).moves setup moves) := by
  have hjoined := joined_runAll calls faithful_empty joined_empty
  exact ((keeps_start setup _ bus results specs drawn).moves hjoined h moves).keepsToItself

/-- Two tasks, of which the second waits for the first. -/
def twoSpecs : List TaskSpec := [⟨"t1", none⟩, ⟨"t2", some [1]⟩]

/-- What a member does that meets no failure. -/
def plainInput : StepInput := ⟨fun _ ↦ 0, 0, "cor_1", "msg_1", false, true, none⟩

theorem keepsToItself_twoSpecs :
    KeepsToItself TaskDb.empty twoSpecs
      ((TeamRun.start TaskDb.empty [] [] twoSpecs 0).moves ⟨countIds, 1, decideAsLead⟩
        ([.create fun _ ↦ 0, .create fun _ ↦ 0, .create fun _ ↦ 0, .launch] ++
          List.replicate 3 (.step 0 plainInput))) := by
  refine keepsToItself_of_apart [] ⟨countIds, 1, decideAsLead⟩ [] [] twoSpecs 0
    ⟨fun i spec hspec _ n hn ↦ ?_, fun _ _ ↦ rfl, fun _ _ _ ↦ rfl⟩ _
  match i with
  | 0 =>
    cases hspec
    cases hn
  | 1 =>
    cases hspec
    obtain rfl := List.mem_singleton.mp hn
    exact ⟨le_rfl, le_rfl⟩

/-! ### A store with a task in it -/

/-- A task that somebody created by hand. -/
def byHand : TaskDb :=
  runAll [⟨.create ⟨"tidy up", none, "tidying up", none, none⟩, leadActor, fun _ ↦ 0⟩] TaskDb.empty

/-- One task is asked for, and the member takes the one that was there. -/
def strayRun : TeamRun :=
  (TeamRun.start byHand [] [] [⟨"t1", none⟩] 0).moves ⟨countIds, 1, decideAsLead⟩
    ([.create fun _ ↦ 0, .create fun _ ↦ 0, .launch] ++ List.replicate 3 (.step 0 plainInput))

theorem not_keepsToItself_strayRun : ¬ KeepsToItself byHand [⟨"t1", none⟩] strayRun := by
  rintro ⟨-, records, hevents, hown⟩
  have hbefore : byHand.events.length = 1 := by decide
  have hafter : (strayRun.db.events.drop 1).map TaskEventRecord.taskId = [2, 1] := by
    decide
  have hcreated : strayRun.lead.createdIds = [2] := by decide
  have hrecords : strayRun.db.events.drop 1 = records := by
    rw [hevents, ← hbefore, List.drop_left]
  have hmem : (1 : ℤ) ∈ records.map TaskEventRecord.taskId := by
    rw [← hrecords, hafter]
    exact List.mem_cons_of_mem _ (List.mem_singleton_self _)
  obtain ⟨record, hrecord, hid⟩ := List.mem_map.mp hmem
  have howned := hown record hrecord
  rw [hid, hcreated] at howned
  cases List.mem_singleton.mp howned

end QwenHarness.Cli
