import QwenHarness.Cli.Sessions
import QwenHarness.Storage.Ledger

/-!
# What a fork leaves and what it makes

A fork only ever writes rows of its own thread. It inserts what it copies under fresh ids, and where
an id is taken the append fails. So whether or not it succeeds, every other thread has the events
and the rows it had; and where it succeeds, the new thread tells the model what the events of the
old one up to the cutoff told it.
-/

namespace QwenHarness.Sessions

open EventStore (AppendCall AppendInput Draw Recorded storedPayload)
open Effect

/-! ## What is copied -/

/-- The payload under other ids. -/
def moved (threadId turnId itemId : String) : EventPayload → EventPayload
  | .itemAppended item => .itemAppended (Item.moved item threadId turnId itemId)
  | payload => payload

/-- Under any ids, the payload is stored as it is given. It holds no more to redact. -/
def Spares (r : Redactor) (payload : EventPayload) : Prop :=
  ∀ threadId turnId itemId p, storedPayload r (moved threadId turnId itemId payload) = some p →
    p = moved threadId turnId itemId payload

theorem historyItem_moved (threadId turnId itemId : String) (payload : EventPayload) :
    historyItem (moved threadId turnId itemId payload) = historyItem payload := by
  cases payload <;> rfl

/-- Reading changes no text. -/
theorem historyItem_viaJson (payload : EventPayload) :
    historyItem payload.viaJson = historyItem payload := by
  cases payload with
  | itemAppended item =>
    obtain ⟨base, body⟩ := item
    cases body <;> rfl
  | _ => rfl

theorem historyOf_append (es es' : List HarnessEvent) :
    historyOf (es ++ es') = historyOf es ++ historyOf es' :=
  List.filterMap_append

theorem historyOf_stored (es : List HarnessEvent) :
    historyOf (es.map HarnessEvent.stored) = historyOf es := by
  rw [historyOf, List.filterMap_map]
  exact List.filterMap_congr fun e _ ↦ historyItem_viaJson e.payload

theorem reconstructHistory_eq {s : EventStore} {es : List HarnessEvent} (h : Recorded s es)
    (threadId : String) : reconstructHistory s threadId =
      .ok (historyOf (es.filter fun e ↦ e.threadId = threadId)) := by
  rw [reconstructHistory, h.readThread, Except.map, historyOf_stored]

/-- It adds nothing to the conversation, and names no row. -/
def Plain (payload : EventPayload) : Prop :=
  historyItem payload = none ∧
    ∀ (p : Projection) (e : HarnessEvent), e.payload = payload → p.written e = []

/-- A payload is stored as one of its kind. -/
theorem plain_of_tag {r : Redactor} (tag : String) {payload p : EventPayload}
    {kvs : List (String × Codec.Value)} (henc : payloadSchema.enc payload = .obj kvs)
    (htag : ∀ v, ("type", v) ∈ kvs → v = .str tag)
    (hplain : ∀ look q, Codec.Variant.dec tag look payloadVariants = some q → Plain q)
    (h : storedPayload r payload = some p) : Plain p := by
  rw [storedPayload, henc, Redactor.redactValue] at h
  exact hplain _ _ (EventStore.dec_redacted tag htag h)

theorem plain_created {r : Redactor} {cwd : String} {canonicalRepo name : Option String}
    {p : EventPayload} (h : storedPayload r (.threadCreated cwd canonicalRepo name) = some p) :
    Plain p := by
  have henc : payloadSchema.enc (.threadCreated cwd canonicalRepo name) =
      .obj [("type", .str "thread-created"), ("cwd", .str cwd),
        ("canonicalRepo", nullableText.enc canonicalRepo), ("name", nullableText.enc name)] := rfl
  refine plain_of_tag "thread-created" henc (by simp) (fun look q hq ↦ ?_) h
  obtain ⟨x, -, rfl⟩ := Option.map_eq_some_iff.mp hq
  exact ⟨rfl, fun p e he ↦ by rw [Projection.written, he]⟩

theorem plain_forked {r : Redactor} {fromThreadId : String} {atSeq : ℤ} {p : EventPayload}
    (h : storedPayload r (.threadForked fromThreadId atSeq) = some p) : Plain p := by
  have henc : payloadSchema.enc (.threadForked fromThreadId atSeq) =
      .obj [("type", .str "thread-forked"), ("fromThreadId", .str fromThreadId),
        ("atSeq", .int atSeq)] := rfl
  refine plain_of_tag "thread-forked" henc (by simp) (fun look q hq ↦ ?_) h
  obtain ⟨x, -, rfl⟩ := Option.map_eq_some_iff.mp hq
  exact ⟨rfl, fun p e he ↦ by rw [Projection.written, he]⟩

/-! ## While a fork is made -/

/-- The threads other than this one. -/
def others (threadId : String) : String → Bool := fun t ↦ decide (t ≠ threadId)

variable {outside : Outside} {threadId : String} {s₀ : EventStore} {es : List HarnessEvent} {n₀ : ℕ}
  {history : List ModelInputItem} {w : SessionState}

/-- Every other thread is as it was. -/
def Left (threadId : String) (s₀ : EventStore) (w : SessionState) : Prop :=
  w.store.keep (others threadId) = s₀.keep (others threadId)

/-- The events of the new thread make this conversation so far, and no other thread has changed. -/
structure Forking (threadId : String) (s₀ : EventStore) (es : List HarnessEvent) (n₀ : ℕ)
    (history : List ModelInputItem) (w : SessionState) : Prop where
  recorded : ∃ more, Recorded w.store (es ++ more) ∧ (∀ e ∈ more, e.threadId = threadId) ∧
    historyOf more = history
  left : Left threadId s₀ w
  drawn : n₀ ≤ w.drawn

/-- No item has an id that is still to be drawn. -/
def FreshItems (outside : Outside) (s₀ : EventStore) (n₀ : ℕ) : Prop :=
  ∀ n kind, n₀ ≤ n → ∀ row ∈ s₀.projection.items.rows, row.id ≠ outside.ids.next n kind

/-- An id that the fork has drawn. -/
def Drawn (outside : Outside) (n₀ : ℕ) (id : String) : Prop :=
  ∃ n kind, n₀ ≤ n ∧ id = outside.ids.next n kind

/-- A drawn id is under no item of another thread. -/
theorem Forking.itemThread (h : Forking threadId s₀ es n₀ history w)
    (hfresh : FreshItems outside s₀ n₀) {item : Item} (hthread : item.base.threadId = threadId)
    (hid : Drawn outside n₀ item.base.id) : w.store.projection.itemThread item = threadId := by
  rw [Projection.itemThread]
  split
  · next row hrow =>
    by_contra hne
    obtain ⟨hmem, hkey⟩ := Keyed.find?_eq_some_iff.mp hrow
    obtain ⟨n, kind, hn, hid⟩ := hid
    have hkept : row ∈ (w.store.keep (others threadId)).projection.items.rows :=
      List.mem_filter.mpr ⟨hmem, decide_eq_true hne⟩
    rw [h.left] at hkept
    exact hfresh n kind hn row (List.mem_of_mem_filter hkept) (hkey.trans hid)
  · exact hthread

theorem append_ok {input : AppendInput} {e : HarnessEvent} {store : EventStore}
    (heq : EventStore.append outside.redactor input (outside.draw w.drawn) w.store =
      (.ok e, store)) : append outside input w = .ok () ⟨store, w.drawn + 1⟩ := by
  unfold append
  rw [heq]

/-- An append ends in one of two ways. -/
theorem append_cases (outside : Outside) (input : AppendInput) (w : SessionState) :
    (∃ e store, EventStore.append outside.redactor input (outside.draw w.drawn) w.store =
      (.ok e, store) ∧ append outside input w = .ok () ⟨store, w.drawn + 1⟩) ∨
    ∃ e, append outside input w = .error (.store e) ⟨w.store, w.drawn + 1⟩ := by
  cases heq : EventStore.append outside.redactor input (outside.draw w.drawn) w.store with
  | mk answer store =>
    cases answer with
    | ok e => exact .inl ⟨e, store, rfl, append_ok heq⟩
    | error e =>
      refine .inr ⟨e, ?_⟩
      have hstore : (EventStore.append outside.redactor input (outside.draw w.drawn) w.store).2 =
        w.store := EventStore.append_error (by rw [heq])
      rw [heq] at hstore
      have hstore : store = w.store := hstore
      unfold append
      rw [heq, ← hstore]

/-- What an append of the fork adds. -/
theorem forking_append {input : AppendInput} {added : Option ModelInputItem}
    (hthread : input.threadId = threadId)
    (hadded : ∀ p, storedPayload outside.redactor input.payload = some p → historyItem p = added)
    (hwritten : ∀ p, storedPayload outside.redactor input.payload = some p →
      ∀ w, Forking threadId s₀ es n₀ history w → ∀ e : HarnessEvent, e.payload = p →
        e.threadId = threadId → ∀ t ∈ w.store.projection.written e, t = threadId) :
    Triple (Forking threadId s₀ es n₀ history) (append outside input)
      (fun _ ↦ Forking threadId s₀ es n₀ (history ++ added.toList)) fun _ ↦ Left threadId s₀ := by
  intro w h
  rcases append_cases outside input w with ⟨e, store, heq, hr⟩ | ⟨e, hr⟩
  · rw [hr]
    obtain ⟨more, hrecorded, hmore, hhistory⟩ := h.recorded
    have happ := EventStore.appended_of_append heq
    have hid : e.threadId = threadId :=
      (congrArg EventEnvelope.threadId happ.envelope).trans hthread
    refine ⟨⟨more ++ [e], ?_, ?_, ?_⟩, ?_, Nat.le_succ_of_le h.drawn⟩
    · rw [← List.append_assoc]
      exact hrecorded.append heq
    · refine List.forall_mem_append.mpr ⟨hmore, fun e' he' ↦ ?_⟩
      rw [List.mem_singleton.mp he']
      exact hid
    · rw [historyOf_append, hhistory, historyOf, List.filterMap_cons, hadded _ happ.payload]
      cases added <;> rfl
    · have hdrop : others threadId e.threadId = false := decide_eq_false fun hne ↦ hne hid
      refine Eq.trans ?_ h.left
      refine EventStore.ext (Keyed.ext ?_) ?_
      · rw [EventStore.keep, EventStore.keep, Keyed.rows_filter, Keyed.rows_filter, happ.rows,
          List.filter_append, List.append_right_eq_self]
        exact List.filter_eq_nil_iff.mpr fun row hrow ↦ by
          rw [List.mem_singleton.mp hrow]
          exact Bool.eq_false_iff.mp hdrop
      · refine Projection.project_keep_of_drop hdrop (fun t ht ↦ ?_) happ.projected
        rw [hwritten _ happ.payload w h e rfl hid t ht, hid]
  · rw [hr]
    exact h.left

/-! ## The copies -/

def MapDrawn (outside : Outside) (n₀ : ℕ) (idMap : IdMap) : Prop :=
  ∀ x ∈ idMap, Drawn outside n₀ x.2

theorem forking_nextId {kind : String} : Triple (Forking threadId s₀ es n₀ history)
    (nextId outside kind)
    (fun id w ↦ Drawn outside n₀ id ∧ Forking threadId s₀ es n₀ history w)
    fun _ ↦ Left threadId s₀ :=
  fun w h ↦ ⟨⟨w.drawn, kind, h.drawn, rfl⟩, h.recorded, h.left, Nat.le_succ_of_le h.drawn⟩

/-- An id is kept or drawn. -/
theorem forking_remap {kind old : String} {idMap : IdMap} (hmap : MapDrawn outside n₀ idMap) :
    Triple (Forking threadId s₀ es n₀ history) (remap outside kind old idMap)
      (fun x w ↦ (Drawn outside n₀ x.1 ∧ MapDrawn outside n₀ x.2) ∧
        Forking threadId s₀ es n₀ history w)
      fun _ ↦ Left threadId s₀ := by
  rw [remap]
  split
  · next id hid =>
    obtain ⟨before, after, hsplit, -⟩ := List.lookup_eq_some_iff.mp hid
    have hmem : (old, id) ∈ idMap := hsplit ▸ List.mem_append_right _ List.mem_cons_self
    exact .pure fun w h ↦ ⟨⟨hmap _ hmem, hmap⟩, h⟩
  · refine .bind forking_nextId fun id ↦ .assuming fun hid ↦ .pure fun w h ↦ ⟨⟨hid, ?_⟩, h⟩
    exact List.forall_mem_cons.mpr ⟨hid, hmap⟩

theorem forking_remapTurn {turnId : Option String} {idMap : IdMap}
    (hmap : MapDrawn outside n₀ idMap) :
    Triple (Forking threadId s₀ es n₀ history) (remapTurn outside turnId idMap)
      (fun x w ↦ (Drawn outside n₀ x.1 ∧ MapDrawn outside n₀ x.2) ∧
        Forking threadId s₀ es n₀ history w)
      fun _ ↦ Left threadId s₀ := by
  have hfree : Triple (Forking threadId s₀ es n₀ history)
      (do let id ← nextId outside "trn"; pure (id, idMap))
      (fun x w ↦ (Drawn outside n₀ x.1 ∧ MapDrawn outside n₀ x.2) ∧
        Forking threadId s₀ es n₀ history w) fun _ ↦ Left threadId s₀ :=
    .bind forking_nextId fun id ↦ .assuming fun hid ↦ .pure fun w h ↦ ⟨⟨hid, hmap⟩, h⟩
  rw [remapTurn.eq_def]
  split
  · split
    · exact hfree
    · exact forking_remap hmap
  · exact hfree

/-- What names no row writes none of another thread. -/
theorem forking_append_named {base : ForkBase} (hbase : base.threadId = threadId)
    {turnId itemId : Option String} {payload : EventPayload} {added : Option ModelInputItem}
    (h : ∀ p, storedPayload outside.redactor payload = some p → historyItem p = added ∧
      ∀ (q : Projection) (e : HarnessEvent), e.payload = p → q.written e = []) :
    Triple (Forking threadId s₀ es n₀ history)
      (append outside (base.input turnId itemId payload))
      (fun _ ↦ Forking threadId s₀ es n₀ (history ++ added.toList)) fun _ ↦ Left threadId s₀ :=
  forking_append hbase (fun p hp ↦ (h p hp).1) fun p hp _ _ e he _ t ht ↦ by
    rw [(h p hp).2 _ e he] at ht
    exact absurd ht List.not_mem_nil

/-- What adds nothing to the conversation. -/
theorem forking_append_plain {base : ForkBase} (hbase : base.threadId = threadId)
    {turnId itemId : Option String} {payload : EventPayload}
    (h : ∀ p, storedPayload outside.redactor payload = some p → Plain p) :
    Triple (Forking threadId s₀ es n₀ history)
      (append outside (base.input turnId itemId payload))
      (fun _ ↦ Forking threadId s₀ es n₀ history) fun _ ↦ Left threadId s₀ :=
  (forking_append_named hbase h).conseq (fun _ h ↦ h)
    (fun _ _ h ↦ (List.append_nil history) ▸ h) fun _ _ h ↦ h

theorem written_of_turnStarted {p : Projection} {e : HarnessEvent} {userText : String}
    (h : e.payload = .turnStarted userText) : p.written e = [] := by
  rw [Projection.written, h]

/-- The events up to the first one after the cutoff. -/
def upTo (cutoff : ℤ) (events : List HarnessEvent) : List HarnessEvent :=
  events.takeWhile fun e ↦ decide (e.seq ≤ cutoff)

theorem upTo_cons_of_le {cutoff : ℤ} {event : HarnessEvent} (events : List HarnessEvent)
    (h : event.seq ≤ cutoff) : upTo cutoff (event :: events) = event :: upTo cutoff events := by
  simp [upTo, h]

theorem upTo_cons_of_lt {cutoff : ℤ} {event : HarnessEvent} (events : List HarnessEvent)
    (h : cutoff < event.seq) : upTo cutoff (event :: events) = [] := by
  simp [upTo, h]

theorem historyOf_singleton (event : HarnessEvent) :
    historyOf [event] = (historyItem event.payload).toList := by
  rw [historyOf, List.filterMap_cons]
  cases historyItem event.payload <;> rfl

/-- **The copies make the conversation** of what is copied. -/
theorem forking_copyEvents (hfresh : FreshItems outside s₀ n₀) {base : ForkBase}
    (hbase : base.threadId = threadId) {cutoff : ℤ} {events : List HarnessEvent}
    (hspares : ∀ e ∈ events, Spares outside.redactor e.payload) {idMap : IdMap}
    (hmap : MapDrawn outside n₀ idMap) :
    Triple (Forking threadId s₀ es n₀ history) (copyEvents outside base cutoff idMap events)
      (fun _ ↦ Forking threadId s₀ es n₀
        (history ++ historyOf (upTo cutoff events)))
      fun _ ↦ Left threadId s₀ := by
  induction events generalizing history idMap with
  | nil =>
    refine .pure fun w h ↦ ?_
    rw [upTo, List.takeWhile_nil, historyOf, List.filterMap_nil, List.append_nil]
    exact h
  | cons event events ih =>
    rw [List.forall_mem_cons] at hspares
    rw [copyEvents.eq_def]
    dsimp only
    split
    · next hlt =>
      rw [upTo_cons_of_lt events hlt]
      refine .pure fun w h ↦ ?_
      rw [historyOf, List.filterMap_nil, List.append_nil]
      exact h
    · next hle =>
      rw [upTo_cons_of_le events (not_lt.mp hle), ← List.singleton_append, historyOf_append,
        ← List.append_assoc, historyOf_singleton]
      obtain ⟨envelope, payload⟩ := event
      cases payload with
      | turnStarted userText =>
        refine .bind (forking_remapTurn hmap) fun x ↦ .assuming fun hx ↦ ?_
        have hstored := hspares.1 "" "" ""
        refine .bind (forking_append_named hbase fun p hp ↦ ⟨congrArg historyItem (hstored p hp),
          fun q e he ↦ written_of_turnStarted (he.trans (hstored p hp))⟩) fun _ ↦ ?_
        exact .bind (ih hspares.2 hx.2) fun copied ↦ .pure fun w h ↦ h
      | itemAppended item =>
        refine .bind (forking_remap hmap) fun x ↦ .assuming fun hx ↦ ?_
        refine .bind (forking_remap hx.2) fun y ↦ .assuming fun hy ↦ ?_
        have hstored := hspares.1 threadId x.1 y.1
        rw [hbase]
        refine .bind (s := fun _ ↦ Forking threadId s₀ es n₀
            (history ++ (historyItem (.itemAppended item)).toList))
          (forking_append hbase (fun p hp ↦ ?_) fun p hp w h e he hthread t ht ↦ ?_) fun _ ↦ ?_
        · rw [hstored p hp]
          exact historyItem_moved threadId x.1 y.1 (.itemAppended item)
        · have hpayload : e.payload = .itemAppended (Item.moved item threadId x.1 y.1) :=
            he.trans (hstored p hp)
          rw [Projection.written, hpayload] at ht
          rw [List.mem_singleton.mp ht]
          exact h.itemThread hfresh rfl hy.1
        · exact .bind (ih hspares.2 hy.2) fun copied ↦ .pure fun w h ↦ h
      | _ =>
        refine (ih hspares.2 hmap).conseq (fun w h ↦ ?_) (fun _ _ h ↦ h) fun _ _ h ↦ h
        change Forking threadId s₀ es n₀ (history ++ []) w
        rw [List.append_nil]
        exact h

/-! ## The fork -/

/-- What a fork of a thread up to an event makes of the store. -/
structure Forked (fromThreadId newThreadId : String) (opts : ForkOptions)
    (store store' : EventStore) : Prop where
  /-- The new conversation is the old one up to the cutoff. -/
  history : ∃ events, store.readThread fromThreadId = .ok events ∧
    reconstructHistory store' newThreadId =
      .ok (historyOf (events.filter fun e ↦ opts.atSeq.all fun seq ↦ decide (e.seq ≤ seq)))
  left : store'.keep (others newThreadId) = store.keep (others newThreadId)

/-- In a thread, what comes up to the first event after the cutoff is what comes up to the
cutoff. -/
theorem upTo_eq_filter {cutoff : ℤ} {events : List HarnessEvent}
    (hsorted : events.Pairwise fun e e' ↦ e.seq < e'.seq) :
    upTo cutoff events = events.filter fun e ↦ decide (e.seq ≤ cutoff) := by
  induction events with
  | nil => rfl
  | cons event events ih =>
    rw [List.pairwise_cons] at hsorted
    rcases le_or_gt event.seq cutoff with h | h
    · rw [upTo_cons_of_le events h, ih hsorted.2, List.filter_cons, if_pos (decide_eq_true h)]
    · rw [upTo_cons_of_lt events h, eq_comm, List.filter_eq_nil_iff]
      refine List.forall_mem_cons.mpr ⟨?_, fun e he ↦ ?_⟩
      · rw [decide_eq_true_iff]
        exact not_le.mpr h
      · rw [decide_eq_true_iff]
        exact not_le.mpr (h.trans (hsorted.1 e he))

theorem sorted_of_recorded {s : EventStore} (h : Recorded s es) (threadId : String) :
    ((es.filter fun e ↦ e.threadId = threadId).map HarnessEvent.stored).Pairwise
      fun e e' ↦ e.seq < e'.seq := by
  have hrange : ((es.filter fun e ↦ e.threadId = threadId).map fun e ↦ e.seq).Pairwise (· < ·) := by
    rw [h.numbered, List.pairwise_map]
    exact List.pairwise_lt_range.imp fun hlt ↦ Int.ofNat_lt.mpr hlt
  rw [List.pairwise_map] at hrange ⊢
  exact hrange

/-- Without a cutoff the fork goes up to the last event. -/
theorem upTo_cutoff {events : List HarnessEvent}
    (hsorted : events.Pairwise fun e e' ↦ e.seq < e'.seq) (atSeq : Option ℤ) :
    upTo (atSeq.getD ((events.getLast?.map fun event ↦ event.seq).getD 0)) events =
      events.filter fun e ↦ atSeq.all fun seq ↦ decide (e.seq ≤ seq) := by
  cases atSeq with
  | some seq => exact upTo_eq_filter hsorted
  | none =>
    rw [upTo_eq_filter hsorted]
    refine List.filter_congr fun e he ↦ decide_eq_true ?_
    obtain ⟨before, last, rfl⟩ := List.eq_nil_or_concat' events |>.resolve_left
      (List.ne_nil_of_mem he)
    rw [List.getLast?_concat]
    rcases List.mem_append.mp he with he | he
    · exact (List.pairwise_append.mp hsorted).2.2 e he last (List.mem_singleton_self _) |>.le
    · rw [List.mem_singleton.mp he]
      exact le_rfl

theorem getThread_rule {p : SessionState → Prop} :
    Triple p (getThread threadId) (fun _ ↦ p) fun _ ↦ p := by
  intro w hw
  rw [getThread]
  cases w.store.getThread threadId with
  | some thread => exact hw
  | none => exact hw

theorem readThread_rule {p : SessionState → Prop} :
    Triple p (readThread threadId) (fun events w ↦ w.store.readThread threadId = .ok events ∧ p w)
      fun _ ↦ p := by
  intro w hw
  rw [readThread]
  cases hr : w.store.readThread threadId with
  | ok events => exact ⟨hr, hw⟩
  | error e => exact hw

/-- **What a fork does.** Whether or not it succeeds, every other thread keeps its events and its
rows. Where it succeeds, the conversation of the new thread is that of the old one up to the
cutoff. -/
theorem forkSession_forks {fromThreadId newThreadId : String} {opts : ForkOptions}
    (hrecorded : Recorded w.store es) (hnew : ∀ e ∈ es, e.threadId ≠ newThreadId)
    (hfresh : FreshItems outside w.store w.drawn)
    (hspares : ∀ e ∈ es, e.threadId = fromThreadId → Spares outside.redactor e.stored.payload) :
    Left newThreadId w.store (after (forkSession outside fromThreadId newThreadId opts w)) ∧
      ∀ result w', forkSession outside fromThreadId newThreadId opts w = .ok result w' →
        Forked fromThreadId newThreadId opts w.store w'.store := by
  set events := (es.filter fun e ↦ e.threadId = fromThreadId).map HarnessEvent.stored with hevents
  have hsorted := sorted_of_recorded hrecorded fromThreadId
  have hread : w.store.readThread fromThreadId = .ok events := hrecorded.readThread fromThreadId
  have hopen : Forking newThreadId w.store es w.drawn [] w :=
    ⟨⟨[], by rw [List.append_nil]; exact hrecorded, by simp, rfl⟩, rfl, le_rfl⟩
  have hfork : Triple (fun v ↦ v = w) (forkSession outside fromThreadId newThreadId opts)
      (fun _ ↦ Forking newThreadId w.store es w.drawn
        (historyOf (events.filter fun e ↦ opts.atSeq.all fun seq ↦ decide (e.seq ≤ seq))))
      fun _ ↦ Left newThreadId w.store := by
    rw [forkSession]
    refine .bind (s := fun _ v ↦ v = w) (getThread_rule.conseq (fun _ h ↦ h) (fun _ _ h ↦ h)
      fun _ v hv ↦ hv ▸ hopen.left) fun source ↦ ?_
    refine .bind (readThread_rule.conseq (fun _ h ↦ h) (fun _ _ h ↦ h)
      fun _ v hv ↦ hv ▸ hopen.left) fun read ↦ ?_
    refine Triple.conseq (s := fun v ↦ read = events ∧
        Forking newThreadId w.store es w.drawn [] v) (.assuming fun hevents' ↦ ?_) (fun v hv ↦ ?_)
      (fun _ _ h ↦ h) fun _ _ h ↦ h
    · rw [hevents', ← upTo_cutoff hsorted]
      refine .bind forking_nextId fun correlationId ↦ .assuming fun _ ↦ ?_
      have hbase : ForkBase.threadId ⟨newThreadId, correlationId, source.permissionProfile,
        ⟨.system, opts.actorId, none⟩⟩ = newThreadId := rfl
      refine .bind (forking_append_plain hbase fun p hp ↦ plain_created hp) fun _ ↦ ?_
      refine .bind (forking_append_plain hbase fun p hp ↦ plain_forked hp) fun _ ↦ ?_
      refine .bind (forking_copyEvents hfresh hbase (fun e he ↦ ?_) (fun x hx ↦ absurd hx
        List.not_mem_nil)) fun copied ↦ .pure fun v h ↦ h
      obtain ⟨e, hfilter, rfl⟩ := List.mem_map.mp he
      obtain ⟨hmem, hthread⟩ := List.mem_filter.mp hfilter
      exact hspares e hmem (of_decide_eq_true hthread)
    · obtain ⟨hv, rfl⟩ := hv
      rw [hread] at hv
      exact ⟨(Except.ok.inj hv).symm, hopen⟩
  have hrun := hfork w rfl
  refine ⟨?_, fun result w' hr ↦ ?_⟩
  · cases hr : forkSession outside fromThreadId newThreadId opts w with
    | ok result w' => rw [hr] at hrun; exact hrun.left
    | error e w' => rw [hr] at hrun; exact hrun
  · rw [hr] at hrun
    obtain ⟨more, hrecorded', hmore, hhistory⟩ := hrun.recorded
    refine ⟨⟨events, hread, ?_⟩, hrun.left⟩
    have hold : (es.filter fun e ↦ e.threadId = newThreadId) = [] :=
      List.filter_eq_nil_iff.mpr fun e he ↦ decide_eq_true_iff.not.mpr (hnew e he)
    have hall : (more.filter fun e ↦ e.threadId = newThreadId) = more :=
      List.filter_eq_self.mpr fun e he ↦ decide_eq_true (hmore e he)
    rw [reconstructHistory_eq hrecorded', List.filter_append, hold, hall, List.nil_append, hhistory]

/-! ### A fork of a short turn -/

/-- What an append that succeeded has stored. -/
theorem payload_of_returned {r : Redactor} {calls : List AppendCall} {s : EventStore}
    {e : HarnessEvent} (h : e ∈ EventStore.returned (EventStore.appendAll r calls s).1) :
    ∃ call ∈ calls, storedPayload r call.input.payload = some e.payload := by
  induction calls generalizing s with
  | nil => exact absurd h List.not_mem_nil
  | cons call calls ih =>
    have hstep : e ∈ ((EventStore.append r call.input call.draw s).1.toOption).toList ++
        EventStore.returned (EventStore.appendAll r calls
          (EventStore.append r call.input call.draw s).2).1 := by
      rw [EventStore.appendAll, EventStore.returned, List.filterMap_cons] at h
      split at h
      · exact List.mem_append_right _ h
      · next e' he' =>
        refine List.mem_append.mpr ((List.mem_cons.mp h).imp (fun heq ↦ ?_) id)
        rw [he', heq]
        exact List.mem_singleton_self _
    rcases List.mem_append.mp hstep with he | he
    · refine ⟨call, List.mem_cons_self, ?_⟩
      cases ha : (EventStore.append r call.input call.draw s).1 with
      | error err =>
        rw [ha] at he
        exact absurd he List.not_mem_nil
      | ok e' =>
        rw [ha] at he
        rw [List.mem_singleton.mp he]
        exact (EventStore.appended_of_append (Prod.ext ha rfl :
          EventStore.append r call.input call.draw s = (.ok e', _))).payload
    · obtain ⟨call', hcall', hp⟩ := ih he
      exact ⟨call', List.mem_cons_of_mem _ hcall', hp⟩

/-- Identifiers of the form that is asked for, as long as few are drawn. -/
def countedIds : IdSource where
  next n kind := kind ++ "_" ++ String.ofList (List.replicate (n + 6) 'i')
  fresh kind m n h := by
    have hlength := congrArg String.length h
    simpa using hlength

theorem countedIds_ne (n : ℕ) (kind : String) : "itm_000001" ≠ countedIds.next n kind := by
  intro h
  have hlast := congrArg (fun s ↦ s.toList.getLast?) h
  simp only [countedIds, String.toList_append, String.toList_ofList, List.replicate_succ',
    ← List.append_assoc, List.getLast?_concat] at hlast
  exact absurd hlast (by decide)

/-- An outside that hides nothing and never fails. -/
def openOutside : Outside where
  redactor := .none
  ids := countedIds
  now _ := 0
  fault _ := none

/-- A thread with one turn, in which the user is answered. -/
def answeredTurn : List AppendCall :=
  let input (itemId : Option String) (payload : EventPayload) : AppendInput :=
    { threadId := "thr_000001", payload, actor := ⟨.system, "act_000001", none⟩
      correlationId := "cor_000001", causationId := none, turnId := some "trn_000001", itemId
      permissionProfile := .ask }
  [⟨input none (.threadCreated "/repo" none (some "main")), { id := "evt_000001", now := 0 }⟩,
    ⟨input none (.turnStarted "hello"), { id := "evt_000002", now := 0 }⟩,
    ⟨input (some "itm_000001") (.itemAppended
      ⟨{ id := "itm_000001", turnId := "trn_000001", threadId := "thr_000001", seq := 0
         createdAt := 0 }, .assistantMessage "hi" false⟩), { id := "evt_000003", now := 0 }⟩]

def answeredState : SessionState := ⟨(EventStore.appendAll .none answeredTurn .empty).2, 0⟩

def answeredEvents : List HarnessEvent :=
  EventStore.returned (EventStore.appendAll .none answeredTurn .empty).1

theorem recorded_answered : Recorded answeredState.store answeredEvents :=
  EventStore.recorded_appendAll .none EventStore.recorded_empty

theorem insensitive_keys : ∀ k ∈ ["type", "cwd", "canonicalRepo", "name", "userText", "item", "id",
    "turnId", "threadId", "seq", "createdAt", "text", "complete"], sensitiveKey k = false := by
  decide +kernel

/-- Nothing in the turn is redacted. -/
theorem redact_answered (threadId turnId itemId : String) : ∀ call ∈ answeredTurn,
    Redactor.none.redactValue
        (payloadSchema.enc (moved threadId turnId itemId call.input.payload)) =
      payloadSchema.enc (moved threadId turnId itemId call.input.payload) := by
  refine List.forall_mem_cons.mpr ⟨?_, List.forall_mem_cons.mpr ⟨?_,
    List.forall_mem_singleton.mpr ?_⟩⟩
  · have henc : payloadSchema.enc (.threadCreated "/repo" none (some "main")) =
        .obj [("type", .str "thread-created"), ("cwd", .str "/repo"), ("canonicalRepo", .null),
          ("name", .str "main")] := rfl
    refine Eq.trans (congrArg _ henc) (Eq.trans ?_ henc.symm)
    simp [Redactor.redactValue, Redactor.redactEntries, setKey, insensitive_keys, Redactor.none]
  · have henc : payloadSchema.enc (.turnStarted "hello") =
        .obj [("type", .str "turn-started"), ("userText", .str "hello")] := rfl
    refine Eq.trans (congrArg _ henc) (Eq.trans ?_ henc.symm)
    simp [Redactor.redactValue, Redactor.redactEntries, setKey, insensitive_keys, Redactor.none]
  · have henc : payloadSchema.enc (.itemAppended ⟨⟨itemId, turnId, threadId, 0, 0⟩,
        .assistantMessage "hi" false⟩) =
        .obj [("type", .str "item-appended"), ("item", .obj [("id", .str itemId),
          ("turnId", .str turnId), ("threadId", .str threadId), ("seq", .num (.fin 0)),
          ("createdAt", .num (.fin 0)), ("type", .str "assistant-message"), ("text", .str "hi"),
          ("complete", .bool false)])] := rfl
    refine Eq.trans (congrArg _ henc) (Eq.trans ?_ henc.symm)
    simp [Redactor.redactValue, Redactor.redactEntries, setKey, insensitive_keys, Redactor.none]

theorem spares_answered {e : HarnessEvent} (he : e ∈ answeredEvents) :
    Spares Redactor.none e.stored.payload := by
  obtain ⟨call, hcall, hp⟩ := payload_of_returned he
  have hpayload : e.payload = call.input.payload := by
    rw [storedPayload] at hp
    have hself : moved "thr_000001" "trn_000001" "itm_000001" call.input.payload =
        call.input.payload :=
      (show ∀ call ∈ answeredTurn, moved "thr_000001" "trn_000001" "itm_000001"
        call.input.payload = call.input.payload from List.forall_mem_cons.mpr ⟨rfl,
          List.forall_mem_cons.mpr ⟨rfl, List.forall_mem_singleton.mpr rfl⟩⟩) call hcall
    have hredact := redact_answered "thr_000001" "trn_000001" "itm_000001" call hcall
    rw [hself] at hredact
    rw [hredact] at hp
    exact payloadSchema.eq_of_dec_enc hp
  have hstored : e.stored.payload = call.input.payload :=
    (congrArg EventPayload.viaJson hpayload).trans
      ((show ∀ call ∈ answeredTurn, call.input.payload.viaJson = call.input.payload from
        List.forall_mem_cons.mpr ⟨rfl, List.forall_mem_cons.mpr ⟨rfl,
          List.forall_mem_singleton.mpr rfl⟩⟩) call hcall)
  intro threadId turnId itemId p hp
  rw [hstored] at hp ⊢
  rw [storedPayload, redact_answered threadId turnId itemId call hcall] at hp
  exact payloadSchema.eq_of_dec_enc hp

/-- The number of events a fork copies, if it is made. -/
def copied : EStateM.Result SessionError SessionState ForkResult → Option ℕ
  | .ok result _ => some result.copiedEvents
  | .error _ _ => none

/-- The fork of the turn is made, and tells what the turn told. -/
theorem forkSession_forks_answered :
    copied (forkSession openOutside "thr_000001" "thr_000002" ⟨none, "act_000002"⟩ answeredState) =
      some 2 ∧
    Left "thr_000002" answeredState.store (after (forkSession openOutside "thr_000001" "thr_000002"
      ⟨none, "act_000002"⟩ answeredState)) :=
  ⟨by decide +kernel, (forkSession_forks recorded_answered (by decide +kernel)
    (fun n kind _ ↦ by
      have hids : answeredState.store.projection.items.rows.map ItemRow.id = ["itm_000001"] := by
        decide +kernel
      intro row hrow
      have hmem : row.id ∈ ["itm_000001"] := hids ▸ List.mem_map_of_mem hrow
      rw [List.mem_singleton.mp hmem]
      exact countedIds_ne n kind)
    fun e he _ ↦ spares_answered he).1⟩

end QwenHarness.Sessions
