import QwenHarness.Storage.AppendLog

/-!
# Rebuilding the projections

The projections are maintained event by event, and they are meant to be what a replay of the log
gives. `Mirrored` states that of a store, and every operation that goes through the log keeps it.
Two operations change tables without going through the log. Crash recovery patches the ledger, so
it keeps the mirror only when there is nothing to recover. Retention deletes the events and the
rows of some threads; it keeps the mirror when no event ever wrote a row across the border between
the threads that go and the threads that stay.
-/

namespace QwenHarness

open Codec

namespace Projection

/-! ## Replaying what was stored -/

theorem itemRow_viaJson (item : Item) : itemRow item.viaJson = itemRow item := by
  have henc : itemSchema.enc item.viaJson = (itemSchema.enc item).viaJson := by
    rw [itemSchema.enc_json, itemSchema_json]
  have htype : originalType (some (itemSchema.enc item.viaJson))
      = originalType (some (itemSchema.enc item)) := by
    obtain ⟨base, body⟩ := item
    cases body <;> rfl
  simp only [itemRow, htype]
  rw [henc, Value.viaJson_viaJson]
  rfl

theorem upsertItem_viaJson (p : Projection) (item : Item) :
    p.upsertItem item.viaJson = p.upsertItem item := by
  simp only [upsertItem, itemRow_viaJson]

/-- A projection cannot tell an event from what is stored of it. -/
theorem project_stored (p : Projection) (e : HarnessEvent) : p.project e.stored = p.project e := by
  obtain ⟨env, payload⟩ := e
  cases payload with
  | itemAppended item =>
    exact congrArg (fun q : Projection ↦ some (q.touchThread ⟨env, .itemAppended item⟩))
      (upsertItem_viaJson p item)
  | itemUpdated item =>
    exact congrArg (fun q : Projection ↦ some (q.touchThread ⟨env, .itemUpdated item⟩))
      (upsertItem_viaJson p item)
  | _ => rfl

theorem replay_stored (p : Projection) (es : List HarnessEvent) :
    p.replay (es.map HarnessEvent.stored) = p.replay es := by
  induction es generalizing p with
  | nil => rfl
  | cons e es ih =>
    rw [List.map_cons, replay_cons, replay_cons, project_stored]
    exact congrArg _ (funext ih)

/-! ## Restricting to some threads -/

/-- The rows of the threads that are kept. -/
def keep (k : String → Bool) (p : Projection) : Projection where
  threads := p.threads.filter fun r ↦ k r.id
  turns := p.turns.filter fun r ↦ k r.threadId
  items := p.items.filter fun r ↦ k r.threadId
  sideEffects := p.sideEffects.filter fun r ↦ k r.threadId

/-- The thread of the item row under this identifier, or of the item that will be inserted. -/
def itemThread (p : Projection) (item : Item) : String :=
  match p.items.find? item.base.id with
  | some r => r.threadId
  | none => item.base.threadId

/-- The threads of the rows an event writes under an identifier that its payload or its envelope
names. -/
def written (p : Projection) (e : HarnessEvent) : List String :=
  match e.payload with
  | .turnStateChanged _ _ | .turnEnded _ _ =>
    (p.turns.rows.filter fun r ↦ some r.id = e.turnId).map TurnRow.threadId
  | .itemAppended item | .itemUpdated item => [p.itemThread item]
  | .sideEffectStarted id | .sideEffectSettled id _ _ =>
    (p.sideEffects.rows.filter fun r ↦ r.id = id).map SideEffectRow.threadId
  | _ => []

/-- Replaying these events, none writes a row across the border of the threads that are kept. -/
def separated (k : String → Bool) : Projection → List HarnessEvent → Bool
  | _, [] => true
  | p, e :: es =>
    (p.written e).all (fun t ↦ k t = k e.threadId) &&
      match p.project e with
      | some p' => separated k p' es
      | none => true

theorem separated_stored (k : String → Bool) (p : Projection) (es : List HarnessEvent) :
    separated k p (es.map HarnessEvent.stored) = separated k p es := by
  induction es generalizing p with
  | nil => rfl
  | cons e es ih =>
    have hwritten : p.written e.stored = p.written e := by
      obtain ⟨env, payload⟩ := e
      cases payload <;> rfl
    rw [List.map_cons, separated, separated, project_stored, hwritten]
    cases p.project e with
    | none => rfl
    | some p' => exact congrArg _ (ih p')

section Keep

variable {k : String → Bool} {p p' : Projection} {e : HarnessEvent}

private theorem keep_updateThread_of_keep {id : String} {f : ThreadRow → ThreadRow}
    (hf : ∀ r, (f r).id = r.id) :
    (p.updateThread id f hf).keep k = (p.keep k).updateThread id f hf := by
  refine Projection.ext ?_ rfl rfl rfl
  exact Keyed.filter_modify_of_stable hf fun r _ _ ↦ by rw [hf]

private theorem keep_updateThread_of_drop {id : String} {f : ThreadRow → ThreadRow}
    (hf : ∀ r, (f r).id = r.id) (hid : k id = false) :
    (p.updateThread id f hf).keep k = p.keep k := by
  refine Projection.ext ?_ rfl rfl rfl
  refine Keyed.filter_modify_of_drop hf fun r _ hr ↦ ?_
  rw [hf, hr]
  exact ⟨hid, hid⟩

private theorem keep_touchThread_of_keep :
    (p.touchThread e).keep k = (p.keep k).touchThread e :=
  keep_updateThread_of_keep _

private theorem keep_touchThread_of_drop (he : k e.threadId = false) :
    (p.touchThread e).keep k = p.keep k :=
  keep_updateThread_of_drop _ he

private theorem keep_updateTurn_of_keep {id : Option String} {f : TurnRow → TurnRow}
    (hf : ∀ r, (f r).id = r.id) (hthread : ∀ r, (f r).threadId = r.threadId) :
    (p.updateTurn id f hf).keep k = (p.keep k).updateTurn id f hf := by
  cases id with
  | none => rfl
  | some id =>
    refine Projection.ext rfl ?_ rfl rfl
    exact Keyed.filter_modify_of_stable hf fun r _ _ ↦ by rw [hthread]

private theorem keep_updateTurn_of_drop {id : Option String} {f : TurnRow → TurnRow}
    (hf : ∀ r, (f r).id = r.id) (hthread : ∀ r, (f r).threadId = r.threadId)
    (hw : ∀ r ∈ p.turns.rows, some r.id = id → k r.threadId = false) :
    (p.updateTurn id f hf).keep k = p.keep k := by
  cases id with
  | none => rfl
  | some id =>
    refine Projection.ext rfl ?_ rfl rfl
    refine Keyed.filter_modify_of_drop hf fun r hr hid ↦ ?_
    rw [hthread]
    exact ⟨hw r hr (congrArg some hid), hw r hr (congrArg some hid)⟩

private theorem keep_updateSideEffect_of_keep {id : String} {f : SideEffectRow → SideEffectRow}
    (hf : ∀ r, (f r).id = r.id) (hthread : ∀ r, (f r).threadId = r.threadId) :
    (p.updateSideEffect id f hf).keep k = (p.keep k).updateSideEffect id f hf := by
  refine Projection.ext rfl rfl rfl ?_
  exact Keyed.filter_modify_of_stable hf fun r _ _ ↦ by rw [hthread]

private theorem keep_updateSideEffect_of_drop {id : String} {f : SideEffectRow → SideEffectRow}
    (hf : ∀ r, (f r).id = r.id) (hthread : ∀ r, (f r).threadId = r.threadId)
    (hw : ∀ r ∈ p.sideEffects.rows, r.id = id → k r.threadId = false) :
    (p.updateSideEffect id f hf).keep k = p.keep k := by
  refine Projection.ext rfl rfl rfl ?_
  refine Keyed.filter_modify_of_drop hf fun r hr hid ↦ ?_
  rw [hthread]
  exact ⟨hw r hr hid, hw r hr hid⟩

private theorem itemThread_of_mem {item : Item} {r : ItemRow} (hr : r ∈ p.items.rows)
    (hid : r.id = item.base.id) : itemThread p item = r.threadId := by
  rw [itemThread, Keyed.find?_eq_some_iff.mpr ⟨hr, hid⟩]

private theorem itemThread_of_not_mem {item : Item}
    (h : ∀ r ∈ p.items.rows, r.id ≠ item.base.id) : itemThread p item = item.base.threadId := by
  rw [itemThread, Keyed.find?_eq_none_iff.mpr h]

private theorem keep_upsertItem_of_keep {item : Item} (hw : k (itemThread p item) = true) :
    (p.upsertItem item).keep k = (p.keep k).upsertItem item := by
  refine Projection.ext rfl rfl ?_ rfl
  refine Keyed.filter_upsert_of_keep _ (fun h ↦ ?_) fun r hr hid ↦ ?_
  · rwa [itemThread_of_not_mem h] at hw
  · rw [itemThread_of_mem hr hid] at hw
    exact ⟨hw, hw⟩

private theorem keep_upsertItem_of_drop {item : Item} (hw : k (itemThread p item) = false) :
    (p.upsertItem item).keep k = p.keep k := by
  refine Projection.ext rfl rfl ?_ rfl
  refine Keyed.filter_upsert_of_drop _ (fun h ↦ ?_) fun r hr hid ↦ ?_
  · rwa [itemThread_of_not_mem h] at hw
  · rw [itemThread_of_mem hr hid] at hw
    exact ⟨hw, hw⟩

/-- **Keep step.** An event of a thread that stays acts on the rows that stay as it acts on all
rows. -/
theorem project_keep_of_keep (he : k e.threadId = true)
    (hw : ∀ t ∈ p.written e, k t = k e.threadId) (h : p.project e = some p') :
    (p.keep k).project e = some (p'.keep k) := by
  obtain ⟨env, payload⟩ := e
  cases payload with
  | threadCreated cwd canonicalRepo name =>
    obtain ⟨threads, hi, rfl⟩ := Option.map_eq_some_iff.mp h
    exact Option.map_eq_some_iff.mpr ⟨_, Keyed.filter_insert_of_keep hi he, rfl⟩
  | turnStarted userText =>
    obtain ⟨turnId, hid, h⟩ := Option.bind_eq_some_iff.mp h
    obtain ⟨turns, hi, h⟩ := Option.bind_eq_some_iff.mp h
    cases h
    rw [keep_touchThread_of_keep]
    refine Option.bind_eq_some_iff.mpr ⟨turnId, hid, ?_⟩
    exact Option.bind_eq_some_iff.mpr ⟨_, Keyed.filter_insert_of_keep hi he, rfl⟩
  | sideEffectIntent intent =>
    obtain ⟨turnId, hid, h⟩ := Option.bind_eq_some_iff.mp h
    obtain ⟨sideEffects, hi, h⟩ := Option.bind_eq_some_iff.mp h
    cases h
    rw [keep_touchThread_of_keep]
    refine Option.bind_eq_some_iff.mpr ⟨turnId, hid, ?_⟩
    exact Option.bind_eq_some_iff.mpr ⟨_, Keyed.filter_insert_of_keep hi he, rfl⟩
  | itemAppended item =>
    cases h
    have hitem : k (p.itemThread item) = true := (hw _ (List.mem_singleton_self _)).trans he
    rw [keep_touchThread_of_keep, keep_upsertItem_of_keep hitem]
    rfl
  | itemUpdated item =>
    cases h
    have hitem : k (p.itemThread item) = true := (hw _ (List.mem_singleton_self _)).trans he
    rw [keep_touchThread_of_keep, keep_upsertItem_of_keep hitem]
    rfl
  | turnStateChanged source target =>
    cases h
    rw [keep_touchThread_of_keep, keep_updateTurn_of_keep]
    · rfl
    · exact fun _ ↦ rfl
  | turnEnded state reason =>
    cases h
    rw [keep_touchThread_of_keep, keep_updateTurn_of_keep]
    · rfl
    · exact fun _ ↦ rfl
  | sideEffectStarted id =>
    cases h
    rw [keep_touchThread_of_keep, keep_updateSideEffect_of_keep]
    · rfl
    · exact fun _ ↦ rfl
  | sideEffectSettled id state resultDigest =>
    cases h
    rw [keep_touchThread_of_keep, keep_updateSideEffect_of_keep]
    · rfl
    · exact fun _ ↦ rfl
  | _ =>
    cases h
    simp only [keep_touchThread_of_keep, keep_updateThread_of_keep]
    rfl

/-- **Drop step.** An event of a thread that goes leaves the rows that stay alone. -/
theorem project_keep_of_drop (he : k e.threadId = false)
    (hw : ∀ t ∈ p.written e, k t = k e.threadId) (h : p.project e = some p') :
    p'.keep k = p.keep k := by
  obtain ⟨env, payload⟩ := e
  cases payload with
  | threadCreated cwd canonicalRepo name =>
    obtain ⟨threads, hi, rfl⟩ := Option.map_eq_some_iff.mp h
    exact Projection.ext (Keyed.filter_insert_of_drop hi he) rfl rfl rfl
  | turnStarted userText =>
    obtain ⟨turnId, -, h⟩ := Option.bind_eq_some_iff.mp h
    obtain ⟨turns, hi, h⟩ := Option.bind_eq_some_iff.mp h
    cases h
    rw [keep_touchThread_of_drop he]
    exact Projection.ext rfl (Keyed.filter_insert_of_drop hi he) rfl rfl
  | sideEffectIntent intent =>
    obtain ⟨turnId, -, h⟩ := Option.bind_eq_some_iff.mp h
    obtain ⟨sideEffects, hi, h⟩ := Option.bind_eq_some_iff.mp h
    cases h
    rw [keep_touchThread_of_drop he]
    exact Projection.ext rfl rfl rfl (Keyed.filter_insert_of_drop hi he)
  | itemAppended item =>
    cases h
    have hitem : k (p.itemThread item) = false := (hw _ (List.mem_singleton_self _)).trans he
    rw [keep_touchThread_of_drop he, keep_upsertItem_of_drop hitem]
  | itemUpdated item =>
    cases h
    have hitem : k (p.itemThread item) = false := (hw _ (List.mem_singleton_self _)).trans he
    rw [keep_touchThread_of_drop he, keep_upsertItem_of_drop hitem]
  | turnStateChanged source target =>
    cases h
    rw [keep_touchThread_of_drop he, keep_updateTurn_of_drop]
    · exact fun _ ↦ rfl
    · intro r hr hid
      exact (hw _ (List.mem_map_of_mem (List.mem_filter.mpr ⟨hr, by simpa using hid⟩))).trans he
  | turnEnded state reason =>
    cases h
    rw [keep_touchThread_of_drop he, keep_updateTurn_of_drop]
    · exact fun _ ↦ rfl
    · intro r hr hid
      exact (hw _ (List.mem_map_of_mem (List.mem_filter.mpr ⟨hr, by simpa using hid⟩))).trans he
  | sideEffectStarted id =>
    cases h
    rw [keep_touchThread_of_drop he, keep_updateSideEffect_of_drop]
    · exact fun _ ↦ rfl
    · intro r hr hid
      exact (hw _ (List.mem_map_of_mem (List.mem_filter.mpr ⟨hr, by simpa using hid⟩))).trans he
  | sideEffectSettled id state resultDigest =>
    cases h
    rw [keep_touchThread_of_drop he, keep_updateSideEffect_of_drop]
    · exact fun _ ↦ rfl
    · intro r hr hid
      exact (hw _ (List.mem_map_of_mem (List.mem_filter.mpr ⟨hr, by simpa using hid⟩))).trans he
  | _ =>
    cases h
    simp only [keep_touchThread_of_drop he, keep_updateThread_of_drop _ he]

/-- **Keep run.** Replaying the events of the threads that stay gives the rows that stay. -/
theorem replay_keep {es : List HarnessEvent} (hs : separated k p es = true)
    (h : p.replay es = some p') :
    (p.keep k).replay (es.filter fun e ↦ k e.threadId) = some (p'.keep k) := by
  induction es generalizing p with
  | nil =>
    cases h
    rfl
  | cons e es ih =>
    rw [replay_cons] at h
    obtain ⟨q, hq, h⟩ := Option.bind_eq_some_iff.mp h
    rw [separated, hq, Bool.and_eq_true, List.all_eq_true] at hs
    have hw : ∀ t ∈ p.written e, k t = k e.threadId := fun t ht ↦ by simpa using hs.1 t ht
    cases he : k e.threadId with
    | true =>
      rw [List.filter_cons_of_pos (by simpa using he), replay_cons,
        project_keep_of_keep he hw hq, Option.bind_some]
      exact ih hs.2 h
    | false =>
      rw [List.filter_cons_of_neg (by simpa using he), ← project_keep_of_drop he hw hq]
      exact ih hs.2 h

end Keep

end Projection

namespace EventStore

open Projection

/-! ## The mirror -/

/-- The events in the log, as they are read. -/
def log (s : EventStore) : List HarnessEvent :=
  match s.readAll with
  | .ok es => es
  | .error _ => []

/-- The log holds these events, and replaying them gives the projections. -/
structure Mirrored (s : EventStore) (es : List HarnessEvent) : Prop extends Recorded s es where
  replayed : Projection.empty.replay es = some s.projection

theorem mirrored_empty : Mirrored .empty [] := ⟨recorded_empty, rfl⟩

theorem Mirrored.log {s : EventStore} {es : List HarnessEvent} (h : Mirrored s es) :
    s.log = es.map HarnessEvent.stored := by
  rw [EventStore.log, h.toRecorded.readAll]

/-- A store that mirrors its log comes out of a rebuild as it went in. -/
theorem Mirrored.rebuild {s : EventStore} {es : List HarnessEvent} (h : Mirrored s es) :
    s.rebuildProjections = (.ok es.length, s) := by
  have hreplay : Projection.empty.replay (es.map HarnessEvent.stored) = some s.projection := by
    rw [replay_stored, h.replayed]
  rw [rebuildProjections, h.toRecorded.readAll]
  simp only [transaction, hreplay, List.length_map]

theorem Mirrored.append {r : Redactor} {input : AppendInput} {draw : Draw} {s s' : EventStore}
    {es : List HarnessEvent} {e : HarnessEvent} (h : Mirrored s es)
    (ha : EventStore.append r input draw s = (.ok e, s')) : Mirrored s' (es ++ [e]) := by
  refine ⟨h.toRecorded.append ha, ?_⟩
  rw [replay_append, h.replayed, Option.bind_some, replay_cons, (appended_of_append ha).projected]
  rfl

/-- Recovery changes nothing when nothing was in flight. -/
theorem recoverInterrupted_eq_self {s : EventStore}
    (h : ∀ r ∈ s.projection.sideEffects.rows, r.state ≠ .inFlight) :
    s.recoverInterrupted.2 = s := by
  have hsame : s.projection.sideEffects.modifyWhere (fun r ↦ decide (r.state = .inFlight))
      (fun r ↦ { r with state := .indeterminate }) (fun _ ↦ rfl) = s.projection.sideEffects :=
    Keyed.modifyWhere_eq_self _ fun r hr ↦ decide_eq_false (h r hr)
  rw [recoverInterrupted]
  simp only [hsame]

/-! ## Retention -/

/-- The threads that a retention run with this cutoff keeps. -/
def keeps (s : EventStore) (cutoff : ℤ) (t : String) : Bool := decide (t ∉ s.staleThreads cutoff)

/-- The rows and the events of the threads that are kept. -/
def keep (k : String → Bool) (s : EventStore) : EventStore :=
  ⟨s.events.filter fun r ↦ k r.threadId, s.projection.keep k⟩

private theorem pruneThread_eq_keep (s : EventStore) (id : String) :
    (s.pruneThread id).2 = s.keep fun t ↦ decide (t ≠ id) := rfl

private theorem keep_keep (s : EventStore) (k k' : String → Bool) :
    (s.keep k).keep k' = s.keep fun t ↦ k t && k' t := by
  refine EventStore.ext (Keyed.ext ?_) (Projection.ext ?_ ?_ ?_ ?_)
  · simp [keep, List.filter_filter, Bool.and_comm]
  all_goals
    refine Keyed.ext ?_
    simp [keep, Projection.keep, List.filter_filter, Bool.and_comm]

private theorem foldl_pruneThread (stale : List String) (n : ℕ) (s : EventStore) :
    (stale.foldl (fun (n, s) id ↦ ((s.pruneThread id).1 + n, (s.pruneThread id).2)) (n, s)).2
      = s.keep fun t ↦ decide (t ∉ stale) := by
  induction stale generalizing n s with
  | nil =>
    refine EventStore.ext (Keyed.ext ?_) (Projection.ext ?_ ?_ ?_ ?_)
    · simp [keep]
    all_goals
      refine Keyed.ext ?_
      simp [keep, Projection.keep]
  | cons id stale ih =>
    rw [List.foldl_cons, ih, pruneThread_eq_keep, keep_keep]
    refine congrArg (fun k ↦ s.keep k) (funext fun t ↦ ?_)
    simp

/-- Retention keeps exactly the rows and the events of the threads it keeps. -/
theorem prune_eq_keep (s : EventStore) (olderThanMs now : ℤ) :
    (s.prune olderThanMs now).2 = s.keep (s.keeps (now - olderThanMs)) :=
  foldl_pruneThread _ 0 s

private theorem Recorded.keep {s : EventStore} {es : List HarnessEvent} (h : Recorded s es)
    (k : String → Bool) : Recorded (s.keep k) (es.filter fun e ↦ k e.threadId) := by
  refine { rows := ?_, ok := fun e he ↦ h.ok e (List.mem_of_mem_filter he), numbered := fun t ↦ ?_ }
  · rw [EventStore.keep, Keyed.rows_filter, h.rows, List.filter_map]
    rfl
  · have hsame : (es.filter fun e ↦ k e.threadId).filter (fun e ↦ e.threadId = t)
        = if k t then es.filter fun e ↦ e.threadId = t else [] := by
      rw [List.filter_filter]
      cases hk : k t with
      | true =>
        refine List.filter_congr fun e _ ↦ ?_
        by_cases ht : e.threadId = t
        · simp [ht, hk]
        · simp [ht]
      | false =>
        refine List.filter_eq_nil_iff.mpr fun e _ ↦ ?_
        by_cases ht : e.threadId = t
        · simp [ht, hk]
        · simp [ht]
    rw [hsame]
    cases k t with
    | true => exact h.numbered t
    | false => rfl

theorem Mirrored.keep {s : EventStore} {es : List HarnessEvent} (h : Mirrored s es)
    {k : String → Bool} (hs : separated k .empty es = true) :
    Mirrored (s.keep k) (es.filter fun e ↦ k e.threadId) := by
  refine ⟨h.toRecorded.keep k, ?_⟩
  exact replay_keep hs h.replayed

/-! ## Runs of maintenance -/

/-- Everything that changes a table. -/
inductive Operation where
  | append (call : AppendCall)
  | recoverInterrupted
  | prune (olderThanMs now : ℤ)
  | rebuildProjections
deriving Repr

/-- The state an operation leaves, whatever it answers. -/
def Operation.run (r : Redactor) (s : EventStore) : Operation → EventStore
  | .append call => (EventStore.append r call.input call.draw s).2
  | .recoverInterrupted => s.recoverInterrupted.2
  | .prune olderThanMs now => (s.prune olderThanMs now).2
  | .rebuildProjections => s.rebuildProjections.2

/-- The operation goes through the log, or changes tables only where the log agrees: there is
nothing to recover, or no event that retention would drop or keep wrote a row on the other side. -/
def Operation.Logged (s : EventStore) : Operation → Prop
  | .append _ => True
  | .recoverInterrupted => ∀ r ∈ s.projection.sideEffects.rows, r.state ≠ .inFlight
  | .prune olderThanMs now => separated (s.keeps (now - olderThanMs)) .empty s.log = true
  | .rebuildProjections => True

instance (s : EventStore) : (op : Operation) → Decidable (op.Logged s)
  | .append _ => inferInstanceAs (Decidable True)
  | .recoverInterrupted =>
    inferInstanceAs (Decidable (∀ r ∈ s.projection.sideEffects.rows, r.state ≠ .inFlight))
  | .prune olderThanMs now =>
    inferInstanceAs (Decidable (separated (s.keeps (now - olderThanMs)) .empty s.log = true))
  | .rebuildProjections => inferInstanceAs (Decidable True)

/-- Every operation of a run is logged, in the state it finds. -/
def AllLogged (r : Redactor) : EventStore → List Operation → Prop
  | _, [] => True
  | s, op :: ops => op.Logged s ∧ AllLogged r (op.run r s) ops

instance decidableAllLogged (r : Redactor) :
    (s : EventStore) → (ops : List Operation) → Decidable (AllLogged r s ops)
  | _, [] => inferInstanceAs (Decidable True)
  | s, op :: ops =>
    have := decidableAllLogged r (op.run r s) ops
    inferInstanceAs (Decidable (_ ∧ _))

/-- **Mirror step.** -/
theorem Mirrored.run {r : Redactor} {s : EventStore} {es : List HarnessEvent} {op : Operation}
    (h : Mirrored s es) (hop : op.Logged s) : ∃ es', Mirrored (op.run r s) es' := by
  cases op with
  | append call =>
    rw [Operation.run]
    cases ha : (EventStore.append r call.input call.draw s).1 with
    | error err =>
      rw [append_error ha]
      exact ⟨es, h⟩
    | ok e => exact ⟨es ++ [e], h.append (Prod.ext ha rfl)⟩
  | recoverInterrupted =>
    rw [Operation.run, recoverInterrupted_eq_self hop]
    exact ⟨es, h⟩
  | prune olderThanMs now =>
    rw [Operation.Logged, h.log, separated_stored] at hop
    rw [Operation.run, prune_eq_keep]
    exact ⟨_, h.keep hop⟩
  | rebuildProjections =>
    rw [Operation.run, h.rebuild]
    exact ⟨es, h⟩

/-- **Mirror run.** -/
theorem Mirrored.runs {r : Redactor} {s : EventStore} {es : List HarnessEvent}
    {ops : List Operation} (h : Mirrored s es) (hops : AllLogged r s ops) :
    ∃ es', Mirrored (ops.foldl (Operation.run r) s) es' := by
  induction ops generalizing s es with
  | nil => exact ⟨es, h⟩
  | cons op ops ih =>
    obtain ⟨es', h'⟩ := h.run (r := r) hops.1
    exact ih h' hops.2

/-- Rebuilding leaves every projection as it was. -/
def RebuildKeeps (s : EventStore) : Prop := s.rebuildProjections.2.projection = s.projection

/-- An append for one turn of one thread, by the user, at a given time. -/
def turnAppend (id : String) (now : ℤ) (payload : EventPayload) : Operation :=
  .append
    { input :=
        { threadId := "thr_000001", payload, actor := ⟨.user, "act_user01", none⟩
          correlationId := "cor_000001", causationId := none, turnId := some "trn_000001"
          itemId := none, permissionProfile := .ask }
      draw := { id, now } }

/-- A side effect is recorded and starts; then the process dies. -/
def startsAndDies : List Operation :=
  [turnAppend "evt_000001" 0
      (.sideEffectIntent ⟨"sfx_000001", "shell:make", .shell, true, "make"⟩),
    turnAppend "evt_000002" 1 (.sideEffectStarted "sfx_000001")]

end EventStore

end QwenHarness
