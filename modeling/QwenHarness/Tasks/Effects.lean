import QwenHarness.Storage.TaskStore
import QwenHarness.Tasks.TaskGraph

/-!
# What an operation does to the store

One lemma for each operation that changes the store: what must have held for it to succeed, and the
events it emitted. An operation that fails leaves the store as it was. Nothing after this looks into
an operation again.
-/

namespace QwenHarness.Tasks

/-- A step that goes on came from one that returned. -/
theorem bind_eq_ok {ε α β : Type} {x : Except ε α} {f : α → Except ε β} {b : β}
    (h : (x >>= f) = .ok b) : ∃ a, x = .ok a ∧ f a = .ok b := by
  cases x with
  | error e => cases h
  | ok a => exact ⟨a, rfl, h⟩

theorem ok_bind {ε α β : Type} (a : α) (f : α → Except ε β) : (.ok a >>= f) = f a := rfl

theorem require_some {α : Type} (a : α) (error : TaskError) : require (some a) error = .ok a := rfl

theorem ensure_of {p : Prop} [Decidable p] (hp : p) (error : TaskError) :
    ensure p error = .ok () := if_pos hp

theorem ensure_eq_ok {p : Prop} [Decidable p] {error : TaskError} {u : Unit}
    (h : ensure p error = .ok u) : p := by
  rw [ensure] at h
  by_contra hp
  rw [if_neg hp] at h
  cases h

theorem require_eq_ok {α : Type} {a : Option α} {b : α} {error : TaskError}
    (h : require a error = .ok b) : a = some b := by
  cases a with
  | none => cases h
  | some a => cases h; rfl

namespace TaskGraph

open TaskDb

variable {now : ℕ → ℤ} {actor : Actor} {db db' : TaskDb} {id : ℤ} {task : Task}
  {records : List TaskEventRecord}

theorem getTask_id {t : StoredTask} (h : db.getTask id = some t) : t.id = id :=
  (Keyed.find?_eq_some_iff.mp h).2

theorem toTask_id {t : StoredTask} (h : db.getTask id = some t) (edges : List DepEdge) :
    (toTask t edges).id = id := getTask_id h

theorem reference_ok {t : StoredTask} (h : reference id db = .ok t) :
    db.getTask id = some t ∧ t.status ≠ .deleted := by
  obtain ⟨t', ht, h⟩ := bind_eq_ok h
  obtain ⟨_, hs, h⟩ := bind_eq_ok h
  cases h
  exact ⟨require_eq_ok ht, ensure_eq_ok hs⟩

theorem checkReferences_ok {bs : List ℤ} {u : Unit} (h : checkReferences db bs = .ok u) :
    ∀ b ∈ bs, ∃ t, db.getTask b = some t ∧ t.status ≠ .deleted := by
  induction bs with
  | nil => simp
  | cons b bs ih =>
    obtain ⟨t, ht, h⟩ := bind_eq_ok h
    exact List.forall_mem_cons.mpr ⟨⟨t, reference_ok ht⟩, ih h⟩

/-- The status a new task gets. -/
def firstStatus (db : TaskDb) (blockedBy : List ℤ) : TaskStatus :=
  if ∀ b ∈ blockedBy, db.isDone b = true then .pending else .blocked

theorem create_ok {input : CreateTaskInput}
    (h : create now actor db input = (.ok (task, records), db')) :
    ∃ parsed, input.parse = some parsed ∧
      (∀ b ∈ distinct parsed.blockedBy, ∃ t, db.getTask b = some t ∧ t.status ≠ .deleted) ∧
      (∀ b ∈ distinct parsed.blockedBy, wouldCreateCycle db.listDeps b db.nextId = false) ∧
      task.id = db.nextId ∧
      Emits now { db with nextId := db.nextId + 1 }
        [⟨db.nextId, actor, .created parsed.subject parsed.description parsed.activeForm
          (firstStatus db (distinct parsed.blockedBy)) parsed.metadata
          (distinct parsed.blockedBy)⟩] db' := by
  rw [create] at h
  cases hp : input.parse with
  | none => rw [hp] at h; cases h
  | some parsed =>
    rw [hp] at h
    have h := transact_eq_ok_iff.mp h
    refine ⟨parsed, rfl, ?_⟩
    generalize distinct parsed.blockedBy = blockedBy at h ⊢
    obtain ⟨_, hrefs, h⟩ := bind_eq_ok h
    obtain ⟨_, hcycle, h⟩ := bind_eq_ok h
    obtain ⟨⟨record, db''⟩, hemit, h⟩ := bind_eq_ok h
    obtain ⟨t, ht, h⟩ := bind_eq_ok h
    cases h
    refine ⟨checkReferences_ok hrefs, fun b hb ↦ ?_, toTask_id (require_eq_ok ht) _, ?_⟩
    · have hany := ensure_eq_ok hcycle
      rw [List.any_eq_false] at hany
      exact Bool.not_eq_true _ ▸ hany b hb
    · have hstatus : (if blockedBy = [] ∨ (blockedBy.all fun b ↦ db.isDone b) = true then
          TaskStatus.pending else .blocked) = firstStatus db blockedBy := by
        refine if_congr ?_ rfl rfl
        rw [List.all_eq_true]
        refine or_iff_right_of_imp ?_
        rintro rfl
        simp
      rw [← hstatus]
      exact .single hemit

theorem create_error {input : CreateTaskInput} {e : TaskError}
    (h : create now actor db input = (.error e, db')) : db' = db := by
  rw [create] at h
  cases hp : input.parse with
  | none => rw [hp] at h; exact (Prod.mk.inj h).2.symm
  | some parsed => rw [hp] at h; exact transact_eq_error h

theorem addDependency_ok {blockerId blockedId : ℤ}
    (h : addDependency now actor db blockerId blockedId = (.ok (task, records), db')) :
    ∃ blocker blocked, (db.getTask blockerId = some blocker ∧ blocker.status ≠ .deleted) ∧
      (db.getTask blockedId = some blocked ∧ blocked.status ≠ .deleted) ∧
      wouldCreateCycle db.listDeps blockerId blockedId = false ∧
      Emits now db
        (⟨blockedId, actor, .dependencyAdded blockerId blockedId⟩ ::
          if (blocked.status = .pending ∨ blocked.status = .released) ∧
              isSatisfied blocker.status = false then
            [⟨blockedId, actor, .statusChanged .blocked⟩]
          else []) db' := by
  have h := transact_eq_ok_iff.mp h
  obtain ⟨blocker, hblocker, h⟩ := bind_eq_ok h
  obtain ⟨blocked, hblocked, h⟩ := bind_eq_ok h
  obtain ⟨_, hcycle, h⟩ := bind_eq_ok h
  obtain ⟨⟨record, db₁⟩, hemit, h⟩ := bind_eq_ok h
  obtain ⟨⟨records', db₂⟩, hreblock, h⟩ := bind_eq_ok h
  obtain ⟨t, -, h⟩ := bind_eq_ok h
  cases h
  refine ⟨blocker, blocked, reference_ok hblocker, reference_ok hblocked, ensure_eq_ok hcycle,
    .cons hemit ?_⟩
  rw [reblock] at hreblock
  split_ifs at hreblock ⊢ with hc
  · obtain ⟨⟨record', db₃⟩, hemit', hreblock⟩ := bind_eq_ok hreblock
    cases hreblock
    rw [← getTask_id (reference_ok hblocked).1]
    exact .single hemit'
  · cases hreblock
    exact .nil

/-- A claim that is won, and one that is lost. -/
theorem claim_ok {owner : String} {result : ClaimResult}
    (h : claim now actor db id owner = (.ok (result, records), db')) :
    ((∃ reason, result = .lost reason) ∧ db' = db ∧
        ∀ t, db.getTask id = some t → t.owner = none → isClaimable t.status = false) ∨
      isOwnerId owner = true ∧ (∃ task, result = .won task ∧ task.id = id) ∧
        (∃ t, db.getTask id = some t ∧ t.owner = none ∧ isClaimable t.status = true) ∧
        Emits now db [⟨id, actor, .claimed owner⟩] db' := by
  rw [claim] at h
  split_ifs at h with howner
  · cases h
  · have h := transact_eq_ok_iff.mp h
    cases ht : db.getTask id with
    | none =>
      rw [ht] at h
      cases h
      exact .inl ⟨⟨_, rfl⟩, rfl, by simp⟩
    | some t =>
      simp only [ht] at h
      cases ho : t.owner with
      | some other =>
        simp only [ho] at h
        cases h
        refine .inl ⟨⟨_, rfl⟩, rfl, ?_⟩
        rintro _ ⟨⟩ hnone
        rw [ho] at hnone
        cases hnone
      | none =>
        simp only [ho] at h
        split_ifs at h with hclaim
        · cases h
          refine .inl ⟨⟨_, rfl⟩, rfl, ?_⟩
          rintro _ ⟨⟩ -
          exact hclaim
        · obtain ⟨⟨record, db₁⟩, hemit, h⟩ := bind_eq_ok h
          obtain ⟨next, hnext, h⟩ := bind_eq_ok h
          cases h
          exact .inr ⟨Bool.not_eq_false _ ▸ howner,
            ⟨_, rfl, toTask_id (require_eq_ok hnext) _⟩,
            ⟨t, rfl, ho, Bool.not_eq_false _ ▸ hclaim⟩, .single hemit⟩

theorem claim_error {owner : String} {e : TaskError}
    (h : claim now actor db id owner = (.error e, db')) : db' = db := by
  rw [claim] at h
  split_ifs at h
  · exact (Prod.mk.inj h).2.symm
  · exact transact_eq_error h

theorem start_ok (h : start now actor db id = (.ok (task, records), db')) :
    (∃ t, db.getTask id = some t ∧ t.status = .claimed) ∧
      allBlockersCompleted db.listDeps id db.isDone = true ∧
      Emits now db [⟨id, actor, .statusChanged .inProgress⟩] db' := by
  rw [start, simpleTransition] at h
  have h := transact_eq_ok_iff.mp h
  obtain ⟨t, ht, h⟩ := bind_eq_ok h
  obtain ⟨_, hcan, h⟩ := bind_eq_ok h
  obtain ⟨_, hguard, h⟩ := bind_eq_ok h
  obtain ⟨⟨record, db₁⟩, hemit, h⟩ := bind_eq_ok h
  obtain ⟨_, -, h⟩ := bind_eq_ok h
  cases h
  exact ⟨⟨t, require_eq_ok ht, canTransition_inProgress.mp (ensure_eq_ok hcan)⟩,
    ensure_eq_ok hguard, .single hemit⟩

theorem start_error {e : TaskError} (h : start now actor db id = (.error e, db')) : db' = db := by
  rw [start, simpleTransition] at h
  exact transact_eq_error h

theorem release_ok (h : release now actor db id = (.ok (task, records), db')) :
    (∃ t, db.getTask id = some t ∧ isOwned t.status = true) ∧
      Emits now db [⟨id, actor, .released⟩] db' := by
  have h := transact_eq_ok_iff.mp h
  obtain ⟨t, ht, h⟩ := bind_eq_ok h
  obtain ⟨_, howned, h⟩ := bind_eq_ok h
  obtain ⟨⟨record, db₁⟩, hemit, h⟩ := bind_eq_ok h
  obtain ⟨_, -, h⟩ := bind_eq_ok h
  cases h
  exact ⟨⟨t, require_eq_ok ht, ensure_eq_ok howned⟩, .single hemit⟩

theorem release_error {e : TaskError} (h : release now actor db id = (.error e, db')) :
    db' = db := transact_eq_error h

theorem setMetadata_ok {metadata : List (String × Codec.Value)}
    (h : setMetadata now actor db id metadata = (.ok (task, records), db')) :
    (∃ t, db.getTask id = some t ∧ t.status ≠ .deleted) ∧
      Emits now db [⟨id, actor, .metadataUpdated metadata⟩] db' := by
  have h := transact_eq_ok_iff.mp h
  obtain ⟨t, ht, h⟩ := bind_eq_ok h
  obtain ⟨_, halive, h⟩ := bind_eq_ok h
  obtain ⟨⟨record, db₁⟩, hemit, h⟩ := bind_eq_ok h
  obtain ⟨_, -, h⟩ := bind_eq_ok h
  cases h
  exact ⟨⟨t, require_eq_ok ht, ensure_eq_ok halive⟩, .single hemit⟩

/-- The events that flip tasks to pending. -/
def flips (actor : Actor) (ids : List ℤ) : List TaskEventInput :=
  ids.map fun id ↦ ⟨id, actor, .statusChanged .pending⟩

theorem flipAll_ok {ids : List ℤ} {flipped : List Task × List TaskEventRecord}
    (h : flipAll now actor ids db = .ok (flipped, db')) : Emits now db (flips actor ids) db' := by
  induction ids generalizing db flipped with
  | nil => cases h; exact .nil
  | cons id ids ih =>
    obtain ⟨⟨record, db₁⟩, hemit, h⟩ := bind_eq_ok h
    obtain ⟨task, -, h⟩ := bind_eq_ok h
    obtain ⟨⟨flipped', db₂⟩, hflip, h⟩ := bind_eq_ok h
    cases h
    exact .cons hemit (ih hflip)

theorem complete_ok {result : CompleteResult}
    (h : complete now actor db id = (.ok (result, records), db')) :
    (∃ t, db.getTask id = some t ∧ t.status = .inProgress) ∧
      ∃ db₁, Emits now db [⟨id, actor, .statusChanged .completed⟩] db₁ ∧
        Emits now db₁
          (flips actor (newlyUnblocked db₁.listDeps id db₁.isBlocked db₁.isDone)) db' := by
  have h := transact_eq_ok_iff.mp h
  obtain ⟨t, ht, h⟩ := bind_eq_ok h
  obtain ⟨_, hcan, h⟩ := bind_eq_ok h
  obtain ⟨⟨record, db₁⟩, hemit, h⟩ := bind_eq_ok h
  obtain ⟨⟨flipped, db₂⟩, hflip, h⟩ := bind_eq_ok h
  obtain ⟨_, -, h⟩ := bind_eq_ok h
  cases h
  exact ⟨⟨t, require_eq_ok ht, canTransition_completed.mp (ensure_eq_ok hcan)⟩, db₁,
    .single hemit, flipAll_ok hflip⟩

theorem delete_ok {result : CompleteResult}
    (h : delete now actor db id = (.ok (result, records), db')) :
    (∃ t, db.getTask id = some t ∧ t.status ≠ .deleted) ∧
      ∃ db₁, Emits now db [⟨id, actor, .deleted⟩] db₁ ∧
        Emits now db₁
          (flips actor (newlyUnblocked db₁.listDeps id db₁.isBlocked db₁.isDone)) db' := by
  have h := transact_eq_ok_iff.mp h
  obtain ⟨t, ht, h⟩ := bind_eq_ok h
  obtain ⟨_, halive, h⟩ := bind_eq_ok h
  obtain ⟨⟨record, db₁⟩, hemit, h⟩ := bind_eq_ok h
  obtain ⟨⟨flipped, db₂⟩, hflip, h⟩ := bind_eq_ok h
  obtain ⟨_, -, h⟩ := bind_eq_ok h
  cases h
  exact ⟨⟨t, require_eq_ok ht, ensure_eq_ok halive⟩, db₁, .single hemit, flipAll_ok hflip⟩

end TaskGraph

end QwenHarness.Tasks
