import QwenHarness.Storage.EventStore

/-!
# What an append writes and a read returns

An event is split into columns on write and reassembled through the lenient parser on read. Two
things are lost on the way: the label of the actor, which has no column, and a number in a
free-form part that JSON cannot spell. `HarnessEvent.stored` is what is left.

The rest of the module is the log as a whole. Sequence numbers come from a query over the rows of
one thread, and the invariant `Recorded` says that this query counts them, whatever is appended to
other threads in between.
-/

namespace QwenHarness

open Codec

/-! ## One event through its row -/

/-- An event as it is read back. -/
def HarnessEvent.stored (e : HarnessEvent) : HarnessEvent :=
  { e with actor := { e.actor with label := none }, payload := e.payload.viaJson }

theorem nullableString_enc (check : String → Bool) (o : Option String) :
    (nullableString check).enc o = nullOr o := by
  cases o <;> rfl

theorem rowValue_eventRow (e : HarnessEvent) :
    rowValue (eventRow e) = eventSchema.enc e.stored := by
  have hpayload : (payloadSchema.enc e.payload).viaJson = payloadSchema.enc e.payload.viaJson := by
    rw [payloadSchema.enc_json, payloadSchema_json]
  rw [rowValue, eventRow, hpayload, ← nullableString_enc (isId "trn"),
    ← nullableString_enc (isId "itm"), ← nullableString_enc (isId "cau")]
  rfl

theorem HarnessEvent.stored_ok {e : HarnessEvent} (h : eventSchema.ok e) :
    eventSchema.ok e.stored := by
  obtain ⟨⟨hid, hver, hseq, htime, hthr, htrn, hitm, ⟨hkind, hact, -⟩, hrest⟩, hpayload⟩ := h
  refine ⟨⟨hid, hver, hseq, htime, hthr, htrn, hitm, ⟨hkind, hact, ?_⟩, hrest⟩, ?_⟩
  · intro label h
    cases h
  · have hjson := payloadSchema.ok_json hpayload
    rwa [payloadSchema_json] at hjson

theorem HarnessEvent.stored_eq_self_iff (e : HarnessEvent) :
    e.stored = e ↔ e.actor.label = none ∧ e.payload.isFinite = true := by
  rw [← EventPayload.viaJson_eq_self_iff]
  obtain ⟨⟨id, ver, seq, time, thr, trn, itm, ⟨kind, act, label⟩, cor, cau, prof⟩, payload⟩ := e
  simp [HarnessEvent.stored, eq_comm]

/-- A row that was written is read strictly, as the event it stores. -/
theorem rowToEvent_eventRow {e : HarnessEvent} (h : eventSchema.ok e) :
    rowToEvent (eventRow e) = .ok e.stored := by
  have hp : parseEventLenient (eventSchema.enc e.stored) = some e.stored :=
    parseEventLenient_enc (HarnessEvent.stored_ok h)
  have hrow : parseEventLenient (rowValue (eventRow e)) = some e.stored := by
    rw [rowValue_eventRow, hp]
  unfold rowToEvent
  simp only [hrow]

theorem mapM_rowToEvent {es : List HarnessEvent} (h : ∀ e ∈ es, eventSchema.ok e) :
    (es.map eventRow).mapM rowToEvent = .ok (es.map HarnessEvent.stored) := by
  induction es with
  | nil => rfl
  | cons e es ih =>
    rw [List.forall_mem_cons] at h
    rw [List.map_cons, List.map_cons, List.mapM_cons, rowToEvent_eventRow h.1, ih h.2]
    rfl

/-! ## One append -/

namespace EventStore

/-- What redaction and validation make of a payload. -/
def storedPayload (r : Redactor) (payload : EventPayload) : Option EventPayload :=
  payloadSchema.dec (r.redactValue (payloadSchema.enc payload))

theorem parseEvent_eq_ok {env : EventEnvelope} {v : Value} {e : HarnessEvent}
    (h : parseEvent env v = .ok e) :
    e.toEventEnvelope = env ∧ payloadSchema.dec v = some e.payload ∧ eventSchema.ok e := by
  have hdec : eventSchema.dec (.obj (envelopeFields.enc env ++ [("payload", v)])) = some e := by
    unfold parseEvent at h
    split at h
    · rename_i he
      cases h
      exact he
    · cases h
  have hok : eventSchema.ok e := eventSchema.ok_of_dec hdec
  obtain ⟨p, hp, rfl⟩ := Option.map_eq_some_iff.mp hdec
  obtain ⟨env', henv, hp⟩ := Option.bind_eq_some_iff.mp hp
  obtain ⟨payload, hpayload, rfl⟩ := Option.map_eq_some_iff.mp hp
  rw [Fields.field_dec, Option.bind_eq_some_iff] at hpayload
  obtain ⟨w, hw, hpayload⟩ := hpayload
  refine ⟨envelopeFields.eq_of_dec_enc (fun k hk ↦ ?_) henv, ?_, hok⟩
  · have hne : k ≠ "payload" := by
      rintro rfl
      exact absurd hk (by decide)
    rw [List.lookup_append, List.lookup_cons, beq_eq_false_iff_ne.mpr hne]
    exact Option.or_none
  · have hnone : (envelopeFields.enc env).lookup "payload" = none :=
      envelopeFields.enc_names env "payload" (by decide)
    rw [List.lookup_append, hnone, Option.none_or, List.lookup_cons_self, Option.some_inj] at hw
    rwa [hw]

/-- What a successful append did. -/
structure Appended (r : Redactor) (input : AppendInput) (draw : Draw) (s : EventStore)
    (e : HarnessEvent) (s' : EventStore) : Prop where
  envelope : e.toEventEnvelope = envelope input draw (s.nextSeq input.threadId)
  payload : storedPayload r input.payload = some e.payload
  ok : eventSchema.ok e
  fresh : ∀ row ∈ s.events.rows, row.id ≠ draw.id
  rows : s'.events.rows = s.events.rows ++ [eventRow e]
  projected : s.projection.project e = some s'.projection

private theorem insertEvent_eq_ok {t t' : Keyed EventRow.id} {row : EventRow}
    (h : insertEvent t row = .ok t') :
    (∀ x ∈ t.rows, x.id ≠ row.id) ∧ t'.rows = t.rows ++ [row] := by
  rw [insertEvent] at h
  split at h
  · cases h
  · split at h
    · rename_i hi
      cases h
      exact Keyed.insert_eq_some_iff.mp hi
    · cases h

private theorem applyProjection_eq_ok {p p' : Projection} {e : HarnessEvent}
    (h : applyProjection p e = .ok p') : p.project e = some p' := by
  rw [applyProjection] at h
  split at h
  · rename_i hp
    cases h
    exact hp
  · cases h

theorem appended_of_append {r : Redactor} {input : AppendInput} {draw : Draw}
    {s s' : EventStore} {e : HarnessEvent} (h : append r input draw s = (.ok e, s')) :
    Appended r input draw s e s' := by
  rw [append, transaction_ok_iff] at h
  obtain ⟨e', he, h⟩ := bind_eq_ok.mp h
  obtain ⟨-, -, h⟩ := bind_eq_ok.mp h
  obtain ⟨events, hevents, h⟩ := bind_eq_ok.mp h
  obtain ⟨-, -, h⟩ := bind_eq_ok.mp h
  obtain ⟨projection, hproj, h⟩ := bind_eq_ok.mp h
  obtain ⟨-, -, h⟩ := bind_eq_ok.mp h
  obtain ⟨-, -, h⟩ := bind_eq_ok.mp h
  cases h
  obtain ⟨henv, hpayload, hok⟩ := parseEvent_eq_ok he
  obtain ⟨hfresh, hrows⟩ := insertEvent_eq_ok hevents
  have hid : e.id = draw.id := congrArg EventEnvelope.id henv
  exact
    { envelope := henv
      payload := hpayload
      ok := hok
      fresh := fun row hrow ↦ hid ▸ hfresh row hrow
      rows := hrows
      projected := applyProjection_eq_ok hproj }

/-! ## The log as a whole -/

/-- The log holds exactly these events, and numbers those of every thread from zero. -/
structure Recorded (s : EventStore) (es : List HarnessEvent) : Prop where
  rows : s.events.rows = es.map eventRow
  ok : ∀ e ∈ es, eventSchema.ok e
  numbered : ∀ t, ((es.filter fun e ↦ e.threadId = t).map fun e ↦ e.seq)
    = (List.range (es.filter fun e ↦ e.threadId = t).length).map fun n : ℕ ↦ (n : ℤ)

theorem recorded_empty : Recorded .empty [] :=
  { rows := rfl
    ok := fun _ h ↦ absurd h List.not_mem_nil
    numbered := fun _ ↦ rfl }

private theorem foldl_max_range (n : ℕ) :
    ((List.range n).map fun k : ℕ ↦ (k : ℤ)).foldl max (-1) + 1 = n := by
  induction n with
  | zero => rfl
  | succ n ih =>
    rw [List.range_succ, List.map_append, List.foldl_append, List.map_singleton, List.foldl_cons,
      List.foldl_nil]
    push_cast
    omega

private theorem filter_rows {es : List HarnessEvent} (t : String) :
    (es.map eventRow).filter (fun r ↦ r.threadId = t)
      = (es.filter fun e ↦ e.threadId = t).map eventRow := by
  rw [List.filter_map]
  rfl

/-- The query for the next sequence number counts the events of the thread. -/
theorem Recorded.nextSeq {s : EventStore} {es : List HarnessEvent} (h : Recorded s es)
    (t : String) : s.nextSeq t = (es.filter fun e ↦ e.threadId = t).length := by
  rw [EventStore.nextSeq, h.rows, filter_rows, List.map_map, ← foldl_max_range, ← h.numbered]
  rfl

/-- **Append step.** A successful append records one more event. -/
theorem Recorded.append {r : Redactor} {input : AppendInput} {draw : Draw} {s s' : EventStore}
    {es : List HarnessEvent} {e : HarnessEvent} (h : Recorded s es)
    (ha : EventStore.append r input draw s = (.ok e, s')) : Recorded s' (es ++ [e]) := by
  have happ := appended_of_append ha
  have hthread : e.threadId = input.threadId := congrArg EventEnvelope.threadId happ.envelope
  have hseq : e.seq = s.nextSeq input.threadId := congrArg EventEnvelope.seq happ.envelope
  refine { rows := ?_, ok := ?_, numbered := fun t ↦ ?_ }
  · rw [happ.rows, h.rows, List.map_append, List.map_singleton]
  · intro x hx
    rcases List.mem_append.mp hx with hx | hx
    · exact h.ok x hx
    · rw [List.mem_singleton.mp hx]
      exact happ.ok
  · by_cases ht : e.threadId = t
    · rw [h.nextSeq, ← hthread, ht] at hseq
      simp [List.filter_append, ht, hseq, List.range_succ, h.numbered t]
    · simp [List.filter_append, ht, h.numbered t]

private theorem readThread_eq {s : EventStore} {es : List HarnessEvent} (h : Recorded s es)
    (t : String) :
    ((s.events.rows.filter fun r ↦ r.threadId = t ∧ 0 ≤ r.seq).insertionSort
      fun a b ↦ a.seq ≤ b.seq) = (es.filter fun e ↦ e.threadId = t).map eventRow := by
  have hnum := h.numbered t
  have hmem : ∀ e ∈ es.filter (fun e ↦ e.threadId = t), 0 ≤ e.seq := by
    intro e he
    have hs := List.mem_map_of_mem (f := fun e : HarnessEvent ↦ e.seq) he
    rw [hnum] at hs
    obtain ⟨n, -, hn⟩ := List.mem_map.mp hs
    omega
  have hfilter : (s.events.rows.filter fun r ↦ r.threadId = t ∧ 0 ≤ r.seq)
      = (es.filter fun e ↦ e.threadId = t).map eventRow := by
    rw [h.rows, ← filter_rows]
    refine List.filter_congr fun row hrow ↦ ?_
    obtain ⟨e, he, rfl⟩ := List.mem_map.mp hrow
    by_cases ht : e.threadId = t
    · have h0 : 0 ≤ e.seq := hmem e (by simp [he, ht])
      simp [eventRow, ht, h0]
    · simp [eventRow, ht]
  rw [hfilter]
  refine List.Pairwise.insertionSort_eq ?_
  have hsorted : ((es.filter fun e ↦ e.threadId = t).map fun e ↦ e.seq).Pairwise (· ≤ ·) := by
    rw [hnum, List.pairwise_map]
    exact List.pairwise_lt_range.imp fun h ↦ by omega
  rw [List.pairwise_map] at hsorted ⊢
  exact hsorted

/-- A thread reads back as what was recorded for it, each event as it is stored. -/
theorem Recorded.readThread {s : EventStore} {es : List HarnessEvent} (h : Recorded s es)
    (t : String) :
    s.readThread t = .ok ((es.filter fun e ↦ e.threadId = t).map HarnessEvent.stored) := by
  rw [EventStore.readThread, readThread_eq h]
  exact mapM_rowToEvent fun e he ↦ h.ok e (List.mem_of_mem_filter he)

theorem Recorded.readAll {s : EventStore} {es : List HarnessEvent} (h : Recorded s es) :
    s.readAll = .ok (es.map HarnessEvent.stored) := by
  rw [EventStore.readAll, h.rows]
  exact mapM_rowToEvent h.ok

/-! ## Sequences of appends -/

/-- One call of `append`, with what it is answered from outside. -/
structure AppendCall where
  input : AppendInput
  draw : Draw
deriving Repr

/-- Append one call after the other, whether or not the ones before succeeded. -/
def appendAll (r : Redactor) :
    List AppendCall → EventStore → List (Except StoreError HarnessEvent) × EventStore
  | [], s => ([], s)
  | c :: cs, s =>
    let (answer, s') := append r c.input c.draw s
    let (answers, s'') := appendAll r cs s'
    (answer :: answers, s'')

/-- The events that the calls which succeeded returned, in call order. -/
def returned (answers : List (Except StoreError HarnessEvent)) : List HarnessEvent :=
  answers.filterMap Except.toOption

/-- A failed append leaves every table as it was. -/
theorem append_error {r : Redactor} {input : AppendInput} {draw : Draw} {s : EventStore}
    {err : StoreError} (h : (append r input draw s).1 = .error err) :
    (append r input draw s).2 = s :=
  transaction_error h

/-- **Append run.** After any sequence of appends the log holds what they returned. -/
theorem recorded_appendAll (r : Redactor) {calls : List AppendCall} {s : EventStore}
    {es : List HarnessEvent} (h : Recorded s es) :
    Recorded (appendAll r calls s).2 (es ++ returned (appendAll r calls s).1) := by
  induction calls generalizing s es with
  | nil => simpa [appendAll, returned] using h
  | cons c cs ih =>
    rw [appendAll]
    cases ha : (append r c.input c.draw s).1 with
    | error err =>
      have hs := append_error ha
      simp only [ha, hs]
      exact ih h
    | ok e =>
      have hrec := h.append (Prod.ext ha rfl : append r c.input c.draw s = (.ok e, _))
      have hrun := ih hrec
      rw [List.append_assoc] at hrun
      simp only [ha]
      exact hrun

/-! ## What survives

A call is plain if nothing of it is lost on the way to its row: its actor has no label, and no
number in the payload that redaction and validation leave is one JSON cannot spell. -/

def AppendCall.Plain (r : Redactor) (c : AppendCall) : Prop :=
  c.input.actor.label = none ∧ ∀ p ∈ storedPayload r c.input.payload, p.isFinite = true

/-- After these calls on a new store, a thread reads back as exactly the events that the calls
which succeeded for it returned, numbered from zero, and no call that failed changed a table. -/
structure ReadsBack (r : Redactor) (calls : List AppendCall) (t : String) : Prop where
  read : (appendAll r calls .empty).2.readThread t
    = .ok ((returned (appendAll r calls .empty).1).filter fun e ↦ e.threadId = t)
  numbered : (((returned (appendAll r calls .empty).1).filter fun e ↦ e.threadId = t).map
      fun e ↦ e.seq)
    = (List.range ((returned (appendAll r calls .empty).1).filter
        fun e ↦ e.threadId = t).length).map fun n : ℕ ↦ (n : ℤ)
  rollback : ∀ before c after, calls = before ++ c :: after →
    ∀ err, (append r c.input c.draw (appendAll r before .empty).2).1 = .error err →
      (append r c.input c.draw (appendAll r before .empty).2).2 = (appendAll r before .empty).2

/-- An answer of the run is an answer of that call. -/
private theorem append_of_mem_zip {r : Redactor} {calls : List AppendCall} {s : EventStore}
    {c : AppendCall} {answer : Except StoreError HarnessEvent}
    (h : (c, answer) ∈ calls.zip (appendAll r calls s).1) :
    ∃ s₁ s₂, append r c.input c.draw s₁ = (answer, s₂) := by
  induction calls generalizing s with
  | nil => cases h
  | cons c' cs ih =>
    rw [appendAll] at h
    rcases List.mem_cons.mp h with h | h
    · obtain ⟨rfl, rfl⟩ := Prod.mk.inj h
      exact ⟨s, _, rfl⟩
    · exact ih h

private theorem mem_returned_iff {r : Redactor} {calls : List AppendCall} {s : EventStore}
    {e : HarnessEvent} :
    e ∈ returned (appendAll r calls s).1
      ↔ ∃ c, (c, .ok e) ∈ calls.zip (appendAll r calls s).1 := by
  induction calls generalizing s with
  | nil => simp [appendAll, returned]
  | cons c cs ih =>
    rw [appendAll]
    have ih := ih (s := (append r c.input c.draw s).2)
    cases ha : (append r c.input c.draw s).1 with
    | error err =>
      simp only [returned, List.filterMap_cons, ha, List.zip_cons_cons, List.mem_cons] at ih ⊢
      simpa [Except.toOption] using ih
    | ok e' =>
      simp only [returned, List.filterMap_cons, ha, List.zip_cons_cons, List.mem_cons] at ih ⊢
      simp [Except.toOption, ih, exists_or]

private theorem plain_iff {r : Redactor} {c : AppendCall} {s s' : EventStore} {e : HarnessEvent}
    (h : append r c.input c.draw s = (.ok e, s')) : c.Plain r ↔ e.stored = e := by
  have happ := appended_of_append h
  have hactor : e.actor = c.input.actor := congrArg EventEnvelope.actor happ.envelope
  rw [AppendCall.Plain, HarnessEvent.stored_eq_self_iff, ← hactor, happ.payload]
  simp

private theorem map_eq_self_iff {α : Type} {f : α → α} {l : List α} :
    l.map f = l ↔ ∀ a ∈ l, f a = a := by
  conv_lhs => rhs; rw [← List.map_id l]
  exact List.map_inj_left

/-- The lead of a team creates its thread under its own name. -/
def leadCreatesThread : AppendCall where
  input :=
    { threadId := "thr_000001", payload := .threadCreated "/repo" (some "/repo") (some "team one")
      actor := ⟨.system, "act_teamlead", some "lead"⟩, correlationId := "cor_000001"
      causationId := none, turnId := none, itemId := none, permissionProfile := .ask }
  draw := { id := "evt_000001", now := 0 }

end EventStore

end QwenHarness
