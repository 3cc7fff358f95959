import QwenHarness.Codec.Settled
import QwenHarness.Storage.Rebuild

/-!
# Export and replay

An export is a header line and one line for each event, as it is read. An import reads every line
leniently, and a replay writes the events into the log of another store and rebuilds its
projections.

An event whose payload this build does not know is read as `unknown`, with the payload inside. A
replay writes back what is inside, so that the row is what it was. A payload that was stored as
`unknown` is a different row with the same reading: the replay takes the wrapping off, and what was
inside is read for the first time.

A line is the value its text denotes. The text of a value has no line break.
-/

namespace QwenHarness

open Codec

/-! ## The functions -/

def exportFormat : String := "qwen-harness/jsonl"

def exportFormatVersion : ℤ := 1

structure ExportHeader where
  format : String
  formatVersion : ℤ
  exportedAt : ℤ
  threadId : Option String
  eventCount : ℕ
deriving DecidableEq, Repr

/-- The lines of a text that are not blank. The first is taken for a header as it is. -/
structure Jsonl where
  header : Option ExportHeader
  lines : List Value
deriving Repr

structure ImportResult where
  header : ExportHeader
  events : List HarnessEvent
  unknownCount : ℕ
deriving Repr

inductive ImportError where
  | empty
  | format (found : String)
  | version (found : ℤ)
  | invalidEvent
  | count (claimed contained : ℕ)
deriving DecidableEq, Repr

def ImportError.message : ImportError → String
  | .empty => "empty export: missing header line"
  | .format found => "unrecognized export format: " ++ found
  | .version found =>
    "export is format version " ++ toString found ++ ", this build understands up to " ++
      toString exportFormatVersion
  | .invalidEvent => "invalid event"
  | .count claimed contained =>
    "export claims " ++ toString claimed ++ " events but contains " ++ toString contained

def EventPayload.isUnknown : EventPayload → Bool
  | .unknown _ _ => true
  | _ => false

def exportJsonl (s : EventStore) (threadId : Option String) (exportedAt : ℤ) :
    Except StoreError Jsonl := do
  let events ← match threadId with
    | some threadId => s.readThread threadId
    | none => s.readAll
  return {
    header := some ⟨exportFormat, exportFormatVersion, exportedAt, threadId, events.length⟩
    lines := events.map fun e ↦ (eventSchema.enc e).viaJson }

def importJsonl (text : Jsonl) : Except ImportError ImportResult :=
  match text.header with
  | none => .error .empty
  | some header =>
    if header.format ≠ exportFormat then .error (.format header.format)
    else if exportFormatVersion < header.formatVersion then .error (.version header.formatVersion)
    else
      match text.lines.mapM parseEventLenient with
      | none => .error .invalidEvent
      | some events =>
        if events.length ≠ header.eventCount then
          .error (.count header.eventCount events.length)
        else .ok ⟨header, events, events.countP (·.payload.isUnknown)⟩

/-- An event goes through the schema once more, unless it is unknown. -/
def validated (e : HarnessEvent) : Except StoreError HarnessEvent :=
  if e.payload.isUnknown then .ok e
  else
    match eventSchema.dec (eventSchema.enc e) with
    | some e => .ok e
    | none => .error .invalidEvent

/-- The row an event is replayed as. What is unknown is written as it came. -/
def replayRow (e : HarnessEvent) : EventRow :=
  match e.payload with
  | .unknown originalType raw =>
    { eventRow e with payloadType := originalType, payload := raw.viaJson }
  | _ => eventRow e

def insertReplayed (events : Keyed EventRow.id) (e : HarnessEvent) :
    Except StoreError (Keyed EventRow.id) := do
  let e ← validated e
  EventStore.insertEvent events (replayRow e)

/-- Insert the events in one transaction, and rebuild the projections. -/
def replayInto (s : EventStore) (events : List HarnessEvent) : Except StoreError Unit × EventStore :=
  match transaction (fun s ↦ do
      let events ← events.foldlM insertReplayed s.events
      return ((), { s with events })) s with
  | (.error err, s) => (.error err, s)
  | (.ok (), s) => (s.rebuildProjections.1.map fun _ ↦ (), s.rebuildProjections.2)

/-! ## Reading a row -/

/-- A payload as it is read. -/
def reread (v : Value) : EventPayload :=
  (payloadSchema.dec v).getD (.unknown (originalType (some v)) v)

/-- An object is read as an event exactly if its envelope is sound, whatever its payload is. -/
theorem parseEventLenient_obj {kvs : List (String × Value)} {v : Value}
    (hv : kvs.lookup "payload" = some v) :
    parseEventLenient (.obj kvs) =
      (envelopeSchema.dec (.obj kvs)).map fun envelope ↦ ⟨envelope, reread v⟩ := by
  have hdec : eventSchema.dec (.obj kvs) = (envelopeSchema.dec (.obj kvs)).bind fun envelope ↦
      (payloadSchema.dec v).map fun payload ↦ ⟨envelope, payload⟩ := by
    change Option.map _ (Option.bind (envelopeFields.dec (kvs.lookup ·)) fun envelope ↦
      Option.map _ ((kvs.lookup "payload").bind payloadSchema.dec)) = _
    rw [hv, Option.bind_some, Option.map_bind]
    refine congrArg (Option.bind _) (funext fun envelope ↦ ?_)
    rw [Function.comp_apply, Option.map_map]
    rfl
  have hfield : field? "payload" (.obj kvs) = some v := hv
  rw [parseEventLenient, hdec, hfield, reread]
  cases envelopeSchema.dec (.obj kvs) <;> cases payloadSchema.dec v <;> rfl

theorem rowToEvent_eq_ok_iff {row : EventRow} {e : HarnessEvent} :
    rowToEvent row = .ok e ↔
      envelopeSchema.dec (rowValue row) = some e.toEventEnvelope ∧
        e.payload = reread row.payload := by
  have hparse := @parseEventLenient_obj [("id", .str row.id),
    ("schemaVersion", .int row.schemaVersion), ("seq", .int row.seq),
    ("timestamp", .int row.timestamp), ("threadId", .str row.threadId),
    ("turnId", nullOr row.turnId), ("itemId", nullOr row.itemId),
    ("actor", .obj [("kind", .str row.actorKind), ("id", .str row.actorId)]),
    ("correlationId", .str row.correlationId), ("causationId", nullOr row.causationId),
    ("permissionProfile", .str row.permissionProfile), ("payload", row.payload)]
    row.payload rfl
  rw [← rowValue] at hparse
  unfold rowToEvent
  rw [hparse]
  cases envelopeSchema.dec (rowValue row) with
  | none => simp
  | some envelope =>
    obtain ⟨envelope', payload⟩ := e
    simp [eq_comm]

/-- The columns that identify an event are the ones it is read with. An actor is read without a
label. -/
theorem columns_of_envelope {row : EventRow} {envelope : EventEnvelope}
    (h : envelopeSchema.dec (rowValue row) = some envelope) :
    envelope.id = row.id ∧ envelope.threadId = row.threadId ∧ envelope.seq = row.seq ∧
      envelope.actor.label = none := by
  obtain ⟨⟨id, version, seq, timestamp, threadId, turnId, itemId, actor, rest⟩, hfields, rfl⟩ :=
    Option.map_eq_some_iff.mp (show Option.map _ _ = _ from h)
  obtain ⟨hid, hfields⟩ := Fields.and_dec.mp hfields
  obtain ⟨-, hfields⟩ := Fields.and_dec.mp hfields
  obtain ⟨hseq, hfields⟩ := Fields.and_dec.mp hfields
  obtain ⟨-, hfields⟩ := Fields.and_dec.mp hfields
  obtain ⟨hthread, hfields⟩ := Fields.and_dec.mp hfields
  obtain ⟨-, hfields⟩ := Fields.and_dec.mp hfields
  obtain ⟨-, hfields⟩ := Fields.and_dec.mp hfields
  obtain ⟨hactor, -⟩ := Fields.and_dec.mp hfields
  have hid : eventIdSchema.dec (eventIdSchema.enc row.id) = some id := hid
  have hseq : nonnegativeInt.dec (nonnegativeInt.enc row.seq) = some seq := hseq
  have hthread : threadIdSchema.dec (threadIdSchema.enc row.threadId) = some threadId := hthread
  refine ⟨eventIdSchema.eq_of_dec_enc hid, threadIdSchema.eq_of_dec_enc hthread,
    nonnegativeInt.eq_of_dec_enc hseq, ?_⟩
  obtain ⟨⟨kind, actorId, label⟩, hparts, rfl⟩ :=
    Option.map_eq_some_iff.mp (show Option.map _ _ = _ from hactor)
  obtain ⟨-, hparts⟩ := Fields.and_dec.mp hparts
  obtain ⟨-, hlabel⟩ := Fields.and_dec.mp hparts
  have hlabel : some none = some label := hlabel
  exact (Option.some.inj hlabel).symm

theorem toolCallFields_settled : toolCallFields.Settled := by
  refine Fields.settled_iso (Fields.settled_and (Fields.settled_of_json fun _ ↦ rfl) ?_)
  refine Fields.settled_and (Fields.settled_of_json fun _ ↦ rfl) ?_
  refine Fields.settled_and (Fields.settled_of_json fun _ ↦ rfl) ?_
  exact Fields.settled_field (Schema.settled_nullable Schema.settled_record)

theorem itemSchema_settled : itemSchema.Settled := by
  refine Schema.settled_object (Fields.settled_iso (Fields.settled_and
    (Fields.settled_of_json fun _ ↦ rfl) (itemUnion.settled ?_)))
  change ∀ V ∈ itemVariants, V.fields.Settled
  simp only [itemVariants, List.forall_mem_cons, List.not_mem_nil, false_implies, implies_true,
    and_true]
  refine ⟨?_, ?_, ?_, ?_, toolCallFields_settled, ?_, ?_, ?_, ?_, ?_, ?_⟩
  all_goals exact Fields.settled_of_json fun _ ↦ rfl

theorem payloadSchema_settled : payloadSchema.Settled := by
  refine Schema.settled_object (payloadUnion.settled ?_)
  change ∀ V ∈ payloadVariants, V.fields.Settled
  simp only [payloadVariants, List.forall_mem_cons, List.not_mem_nil, false_implies, implies_true,
    and_true]
  refine ⟨?_, ?_, ?_, ?_, ?_, ?_, ?_, ?_, Fields.settled_field itemSchema_settled,
    Fields.settled_field itemSchema_settled, ?_, ?_, ?_, ?_, ?_, ?_, ?_, ?_, ?_, ?_, ?_, ?_,
    Fields.settled_and (Fields.settled_of_json fun _ ↦ rfl)
      (Fields.settled_field Schema.settled_unknown)⟩
  all_goals exact Fields.settled_of_json fun _ ↦ rfl

/-! ## The log that is exported -/

/-- A log as it lies on disk, all of it readable. Its payloads may be of any kind, known or not. -/
structure EventLog extends EventStore where
  /-- The payload column is text. -/
  textual : ∀ row ∈ events.rows, row.payload.viaJson = row.payload
  /-- `UNIQUE (thread_id, seq)`. -/
  unique : (events.rows.map fun row ↦ (row.threadId, row.seq)).Nodup
  entries : List HarnessEvent
  reads : toEventStore.readAll = .ok entries

/-- An event that text spells as it is, and that has no label. -/
structure HarnessEvent.Settled (e : HarnessEvent) : Prop where
  ok : eventSchema.ok e
  label : e.actor.label = none
  payload : e.payload.viaJson = e.payload

theorem payload_reread {v : Value} (hv : v.viaJson = v) :
    payloadSchema.ok (reread v) ∧ (reread v).viaJson = reread v := by
  rw [reread]
  cases hdec : payloadSchema.dec v with
  | none => exact ⟨⟨rfl, trivial⟩, congrArg (EventPayload.unknown _) hv⟩
  | some p =>
    rw [Option.getD_some]
    refine ⟨payloadSchema.ok_of_dec hdec, ?_⟩
    rw [← payloadSchema_json]
    exact payloadSchema_settled hv hdec

/-- What is read from text is settled. -/
theorem settled_of_row {row : EventRow} {e : HarnessEvent} (hv : row.payload.viaJson = row.payload)
    (h : rowToEvent row = .ok e) : e.Settled := by
  obtain ⟨henvelope, hpayload⟩ := rowToEvent_eq_ok_iff.mp h
  obtain ⟨hok, hjson⟩ := payload_reread hv
  rw [← hpayload] at hok hjson
  exact ⟨⟨envelopeSchema.ok_of_dec henvelope, hok⟩, (columns_of_envelope henvelope).2.2.2, hjson⟩

section Settled

variable {e : HarnessEvent} (he : e.Settled)

include he

theorem HarnessEvent.Settled.stored : e.stored = e :=
  (e.stored_eq_self_iff).mpr ⟨he.label, (EventPayload.viaJson_eq_self_iff _).mp he.payload⟩

/-- An import reads what the export wrote. -/
theorem HarnessEvent.Settled.reads_line :
    parseEventLenient (eventSchema.enc e).viaJson = some e := by
  have hjson : eventSchema.json e = e := by
    obtain ⟨envelope, payload⟩ := e
    change HarnessEvent.mk envelope (payloadSchema.json payload) = _
    rw [payloadSchema_json, he.payload]
  rw [eventSchema.enc_json, hjson]
  exact parseEventLenient_enc he.ok

theorem HarnessEvent.Settled.validated_eq : validated e = .ok e := by
  rw [validated]
  split
  · rfl
  · rw [eventSchema.dec_enc he.ok]

end Settled

/-- What a replay makes of a payload. -/
def EventPayload.replayed : EventPayload → EventPayload
  | .unknown _ raw => reread raw
  | p => p

def HarnessEvent.replayed (e : HarnessEvent) : HarnessEvent :=
  { e with payload := e.payload.replayed }

theorem columns_replayRow (e : HarnessEvent) :
    (replayRow e).id = e.id ∧ (replayRow e).threadId = e.threadId ∧ (replayRow e).seq = e.seq := by
  rw [replayRow]
  split <;> exact ⟨rfl, rfl, rfl⟩

theorem HarnessEvent.Settled.reads_replayRow {e : HarnessEvent} (he : e.Settled) :
    rowToEvent (replayRow e) = .ok e.replayed := by
  have hknown : rowToEvent (eventRow e) = .ok e := by
    rw [rowToEvent_eventRow he.ok, he.stored]
  obtain ⟨envelope, payload⟩ := e
  cases payload with
  | unknown originalType raw =>
    obtain ⟨henvelope, -⟩ := rowToEvent_eq_ok_iff.mp hknown
    have hraw : raw.viaJson = raw := (EventPayload.unknown.inj he.payload).2
    rw [rowToEvent_eq_ok_iff]
    exact ⟨henvelope, congrArg reread hraw.symm⟩
  | _ => exact hknown

/-! ## What is inside a payload -/

theorem sizeOf_lookup_lt {kvs : List (String × Value)} {k : String} {v : Value}
    (h : kvs.lookup k = some v) : sizeOf v < sizeOf (Value.obj kvs) := by
  have hmem : ∃ k', (k', v) ∈ kvs := by
    obtain ⟨l₁, l₂, hkvs, -⟩ := List.lookup_eq_some_iff.mp h
    exact ⟨k, hkvs ▸ List.mem_append_right _ List.mem_cons_self⟩
  obtain ⟨k', hmem⟩ := hmem
  have hpair := List.sizeOf_lt_of_mem hmem
  rw [Prod.mk.sizeOf_spec] at hpair
  rw [Value.obj.sizeOf_spec]
  omega

/-- A payload that is read as `unknown` where it lies holds the raw payload in a field. -/
theorem raw_of_dec {v raw : Value} {t : String} (h : payloadSchema.dec v = some (.unknown t raw)) :
    ∃ kvs, v = .obj kvs ∧ kvs.lookup "raw" = some raw := by
  cases v with
  | obj kvs =>
    have hfields : payloadUnion.fields.dec (kvs.lookup ·) = some (.unknown t raw) := h
    obtain ⟨tag, -, hvariant⟩ := payloadUnion.tag_of_dec hfields
    obtain ⟨V, hV, htag, b, -, hb⟩ := Variant.exists_of_dec hvariant
    have hproj : ∀ V ∈ payloadVariants, V.tag ≠ "unknown" →
        V.proj (EventPayload.unknown t raw) = none := by
      simp [payloadVariants]
    have hunknown : V.tag = "unknown" := by
      by_contra hne
      have hnone := hproj V hV hne
      rw [← hb, V.proj_inj] at hnone
      cases hnone
    rw [← htag, hunknown] at hvariant
    have hvariant : Option.map _ (((Fields.field "originalType" Schema.text).and
        (Fields.field "raw" Schema.unknown)).dec (kvs.lookup ·)) =
        some (EventPayload.unknown t raw) := hvariant
    obtain ⟨⟨t', raw'⟩, hparts, heq⟩ := Option.map_eq_some_iff.mp hvariant
    cases heq
    obtain ⟨-, hraw⟩ := Fields.and_dec.mp hparts
    obtain ⟨w, hw, hdec⟩ := Option.bind_eq_some_iff.mp hraw
    cases hdec
    exact ⟨kvs, rfl, hw⟩
  | _ => cases h

/-- No payload is inside itself. -/
theorem dec_ne_self (t : String) (v : Value) : payloadSchema.dec v ≠ some (.unknown t v) := by
  intro h
  obtain ⟨kvs, hv, hraw⟩ := raw_of_dec h
  have hlt := sizeOf_lookup_lt hraw
  rw [← hv] at hlt
  exact lt_irrefl _ hlt

/-- What was stored as `unknown` holds something this build does not know, under the type it
claims. -/
def WrapsUnknown (v : Value) : Prop :=
  ∀ t raw, payloadSchema.dec v = some (.unknown t raw) →
    payloadSchema.dec raw = none ∧ originalType (some raw) = t

/-- A payload is replayed as it was read exactly if it does not wrap what would be read anew. -/
theorem replayed_reread_iff {v : Value} : (reread v).replayed = reread v ↔ WrapsUnknown v := by
  rw [WrapsUnknown, reread]
  cases hdec : payloadSchema.dec v with
  | none =>
    refine iff_of_true ?_ (by simp)
    change reread v = _
    rw [reread, hdec]
  | some p =>
    rw [Option.getD_some]
    cases p with
    | unknown t raw =>
      change reread raw = _ ↔ _
      rw [reread]
      constructor
      · intro h t' raw' heq
        cases heq
        cases hraw : payloadSchema.dec raw with
        | none =>
          rw [hraw] at h
          exact ⟨rfl, (EventPayload.unknown.inj h).1⟩
        | some q =>
          rw [hraw, Option.getD_some] at h
          rw [h] at hraw
          exact absurd hraw (dec_ne_self t raw)
      · intro h
        obtain ⟨hraw, htype⟩ := h t raw rfl
        rw [hraw, Option.getD_none, htype]
    | _ => exact iff_of_true rfl (by simp)

/-! ## The round trip -/

section Except

variable {α β ε : Type}

theorem forall₂_of_mapM {f : α → Except ε β} {as : List α} {bs : List β}
    (h : as.mapM f = .ok bs) : List.Forall₂ (fun a b ↦ f a = .ok b) as bs := by
  induction as generalizing bs with
  | nil =>
    cases h
    exact .nil
  | cons a as ih =>
    rw [List.mapM_cons] at h
    obtain ⟨b, hb, h⟩ := bind_eq_ok.mp h
    obtain ⟨bs', hbs, h⟩ := bind_eq_ok.mp h
    cases h
    exact .cons hb (ih hbs)

theorem forall_mem_of_forall₂ {R : α → β → Prop} {p : α → Prop} {q : β → Prop} {as : List α}
    {bs : List β} (h : List.Forall₂ R as bs) (hpq : ∀ a b, R a b → p a → q b)
    (hp : ∀ a ∈ as, p a) : ∀ b ∈ bs, q b := by
  induction h with
  | nil => exact fun _ hb ↦ absurd hb List.not_mem_nil
  | cons hab _ ih =>
    rw [List.forall_mem_cons] at hp ⊢
    exact ⟨hpq _ _ hab hp.1, ih hp.2⟩

theorem map_eq_map_of_forall₂ {γ : Type} {R : α → β → Prop} {f : α → γ} {g : β → γ} {as : List α}
    {bs : List β} (h : List.Forall₂ R as bs) (hfg : ∀ a b, R a b → f a = g b) :
    as.map f = bs.map g := by
  induction h with
  | nil => rfl
  | cons hab _ ih => rw [List.map_cons, List.map_cons, hfg _ _ hab, ih]

end Except

theorem mapM_replayRow {es : List HarnessEvent} (h : ∀ e ∈ es, e.Settled) :
    (es.map replayRow).mapM rowToEvent = .ok (es.map HarnessEvent.replayed) := by
  induction es with
  | nil => rfl
  | cons e es ih =>
    rw [List.forall_mem_cons] at h
    rw [List.map_cons, List.map_cons, List.mapM_cons, h.1.reads_replayRow, ih h.2]
    rfl

theorem insertReplayed_of_fresh {table : Keyed EventRow.id} {e : HarnessEvent} (he : e.Settled)
    (hid : ∀ row ∈ table.rows, row.id ≠ e.id)
    (hseq : ∀ row ∈ table.rows, (row.threadId, row.seq) ≠ (e.threadId, e.seq)) :
    ∃ table', insertReplayed table e = .ok table' ∧
      table'.rows = table.rows ++ [replayRow e] := by
  obtain ⟨hrid, hrthread, hrseq⟩ := columns_replayRow e
  have hfree : ¬ (table.rows.any fun r ↦
      r.threadId = (replayRow e).threadId ∧ r.seq = (replayRow e).seq) = true := by
    rw [List.any_eq_true, hrthread, hrseq]
    rintro ⟨row, hrow, heq⟩
    obtain ⟨hthread, hseq'⟩ := of_decide_eq_true heq
    exact hseq row hrow (Prod.ext hthread hseq')
  have hinsert : ∃ table', table.insert (replayRow e) = some table' := by
    cases hi : table.insert (replayRow e) with
    | none =>
      obtain ⟨row, hrow, heq⟩ := Keyed.insert_eq_none_iff.mp hi
      exact absurd (heq.trans hrid) (hid row hrow)
    | some table' => exact ⟨table', rfl⟩
  obtain ⟨table', hi⟩ := hinsert
  refine ⟨table', ?_, Keyed.rows_of_insert hi⟩
  rw [insertReplayed, he.validated_eq]
  change EventStore.insertEvent table (replayRow e) = _
  rw [EventStore.insertEvent, if_neg hfree, hi]

/-- Events with identifiers and numbers of their own are all inserted, in their order. -/
theorem foldlM_insertReplayed {es : List HarnessEvent} {table : Keyed EventRow.id}
    (he : ∀ e ∈ es, e.Settled) (hid : es.Pairwise fun e e' ↦ e.id ≠ e'.id)
    (hseq : es.Pairwise fun e e' ↦ (e.threadId, e.seq) ≠ (e'.threadId, e'.seq))
    (htable : ∀ row ∈ table.rows, ∀ e ∈ es,
      row.id ≠ e.id ∧ (row.threadId, row.seq) ≠ (e.threadId, e.seq)) :
    ∃ table', es.foldlM insertReplayed table = .ok table' ∧
      table'.rows = table.rows ++ es.map replayRow := by
  induction es generalizing table with
  | nil => exact ⟨table, rfl, (List.append_nil _).symm⟩
  | cons e es ih =>
    rw [List.forall_mem_cons] at he
    rw [List.pairwise_cons] at hid hseq
    obtain ⟨hrid, hrthread, hrseq⟩ := columns_replayRow e
    obtain ⟨table₁, hinsert, hrows⟩ := insertReplayed_of_fresh he.1
      (fun row hrow ↦ (htable row hrow e List.mem_cons_self).1)
      (fun row hrow ↦ (htable row hrow e List.mem_cons_self).2)
    have hfresh : ∀ row ∈ table₁.rows, ∀ e' ∈ es,
        row.id ≠ e'.id ∧ (row.threadId, row.seq) ≠ (e'.threadId, e'.seq) := by
      intro row hrow e' he'
      rw [hrows, List.mem_append, List.mem_singleton] at hrow
      rcases hrow with hrow | rfl
      · exact htable row hrow e' (List.mem_cons_of_mem e he')
      · rw [hrid, hrthread, hrseq]
        exact ⟨hid.1 e' he', hseq.1 e' he'⟩
    obtain ⟨table', hrest, hrows'⟩ := ih he.2 hid.2 hseq.2 hfresh
    refine ⟨table', ?_, ?_⟩
    · rw [List.foldlM_cons, hinsert]
      exact hrest
    · rw [hrows', hrows, List.map_cons, List.append_assoc, List.singleton_append]

namespace EventStore

/-- A rebuild leaves the log alone. -/
theorem events_rebuildProjections (s : EventStore) :
    s.rebuildProjections.2.events = s.events := by
  rw [rebuildProjections]
  split
  · rfl
  · rw [transaction]
    cases Projection.empty.replay _ <;> rfl

theorem rebuildProjections_of_replay {s : EventStore} {es : List HarnessEvent} {p : Projection}
    (h : s.readAll = .ok es) (hp : Projection.empty.replay es = some p) :
    s.rebuildProjections = (.ok es.length, { s with projection := p }) := by
  rw [rebuildProjections, h]
  dsimp only [transaction]
  rw [hp]

theorem exists_replay_of_rebuildProjections {s : EventStore} {es : List HarnessEvent} {n : ℕ}
    (h : s.readAll = .ok es) (hn : s.rebuildProjections.1 = .ok n) :
    ∃ p, Projection.empty.replay es = some p := by
  rw [rebuildProjections, h] at hn
  dsimp only [transaction] at hn
  cases hp : Projection.empty.replay es with
  | none =>
    rw [hp] at hn
    cases hn
  | some p => exact ⟨p, rfl⟩

end EventStore

namespace EventLog

variable (l : EventLog)

/-- Every event of the log is read from a row, and every row gives one. -/
theorem rows_entries : List.Forall₂ (fun row e ↦ rowToEvent row = .ok e) l.events.rows l.entries :=
  forall₂_of_mapM l.reads

theorem settled : ∀ e ∈ l.entries, e.Settled :=
  forall_mem_of_forall₂ l.rows_entries (fun _ _ h hv ↦ settled_of_row hv h) l.textual

theorem ids_entries : l.entries.Pairwise fun e e' ↦ e.id ≠ e'.id := by
  have hmap : l.events.rows.map EventRow.id = l.entries.map fun e ↦ e.id :=
    map_eq_map_of_forall₂ l.rows_entries fun row e h ↦
      (columns_of_envelope (rowToEvent_eq_ok_iff.mp h).1).1.symm
  have hnodup := l.events.nodup
  rw [hmap] at hnodup
  exact List.pairwise_map.mp hnodup

theorem numbers_entries :
    l.entries.Pairwise fun e e' ↦ (e.threadId, e.seq) ≠ (e'.threadId, e'.seq) := by
  have hmap : (l.events.rows.map fun row ↦ (row.threadId, row.seq)) =
      l.entries.map fun e ↦ (e.threadId, e.seq) := by
    refine map_eq_map_of_forall₂ l.rows_entries fun row e h ↦ ?_
    obtain ⟨-, hthread, hseq, -⟩ := columns_of_envelope (rowToEvent_eq_ok_iff.mp h).1
    rw [hthread, hseq]
  have hnodup := l.unique
  rw [hmap] at hnodup
  exact List.pairwise_map.mp hnodup

/-- Every line of an export is read as the event it was written for. -/
theorem mapM_lines {es : List HarnessEvent} (h : ∀ e ∈ es, e.Settled) :
    (es.map fun e ↦ (eventSchema.enc e).viaJson).mapM parseEventLenient = some es := by
  induction es with
  | nil => rfl
  | cons e es ih =>
    rw [List.forall_mem_cons] at h
    rw [List.map_cons, List.mapM_cons, h.1.reads_line, ih h.2]
    rfl

/-- What an export of the whole log holds. -/
def exported (exportedAt : ℤ) : Jsonl where
  header := some ⟨exportFormat, exportFormatVersion, exportedAt, none, l.entries.length⟩
  lines := l.entries.map fun e ↦ (eventSchema.enc e).viaJson

theorem exportJsonl_eq (exportedAt : ℤ) :
    exportJsonl l.toEventStore none exportedAt = .ok (l.exported exportedAt) := by
  rw [exportJsonl]
  dsimp only
  rw [l.reads]
  rfl

theorem importJsonl_exported (exportedAt : ℤ) :
    ∃ result, importJsonl (l.exported exportedAt) = .ok result ∧ result.events = l.entries := by
  refine ⟨⟨⟨exportFormat, exportFormatVersion, exportedAt, none, l.entries.length⟩, l.entries,
    l.entries.countP (·.payload.isUnknown)⟩, ?_, rfl⟩
  rw [importJsonl, exported]
  dsimp only
  rw [if_neg (not_not_intro rfl), if_neg (lt_irrefl _), mapM_lines l.settled]
  dsimp only
  rw [if_neg (not_not_intro rfl)]

/-- The store a replay of the log leaves: the rows are the events as they were read. -/
theorem replayInto_entries : ∃ t : EventStore, t.events.rows = l.entries.map replayRow ∧
    replayInto .empty l.entries = (t.rebuildProjections.1.map fun _ ↦ (), t.rebuildProjections.2) := by
  obtain ⟨table, hinsert, hrows⟩ := @foldlM_insertReplayed l.entries .empty l.settled
    l.ids_entries l.numbers_entries fun row hrow ↦ absurd hrow List.not_mem_nil
  refine ⟨⟨table, .empty⟩, hrows, ?_⟩
  have hbody : transaction (fun s ↦ do
      let events ← l.entries.foldlM insertReplayed s.events
      return ((), { s with events })) EventStore.empty = (.ok (), ⟨table, .empty⟩) := by
    rw [transaction_ok_iff]
    change (l.entries.foldlM insertReplayed Keyed.empty >>= _) = _
    rw [hinsert]
    rfl
  rw [replayInto, hbody]

/-- The round trip through an export, an import and a replay into a new store gives the log as it
is read, and the projections a rebuild gives. -/
def RoundTrips : Prop :=
  ∀ exportedAt, ∃ text result,
    exportJsonl l.toEventStore none exportedAt = .ok text ∧ importJsonl text = .ok result ∧
      (replayInto .empty result.events).2.readAll = l.readAll ∧
      ∀ n, l.rebuildProjections.1 = .ok n →
        (replayInto .empty result.events).1 = .ok () ∧
          (replayInto .empty result.events).2.projection = l.rebuildProjections.2.projection

/-- What the store reads back after the round trip. -/
theorem readAll_replayInto :
    (replayInto .empty l.entries).2.readAll = .ok (l.entries.map HarnessEvent.replayed) := by
  obtain ⟨t, hrows, hreplay⟩ := l.replayInto_entries
  rw [hreplay, EventStore.readAll, EventStore.events_rebuildProjections, hrows]
  exact mapM_replayRow l.settled

theorem roundTrips_iff_replayed : l.RoundTrips ↔ ∀ e ∈ l.entries, e.replayed = e := by
  have hself : l.entries.map HarnessEvent.replayed = l.entries ↔
      ∀ e ∈ l.entries, e.replayed = e := by
    conv_lhs => rhs; rw [← List.map_id l.entries]
    exact List.map_inj_left
  constructor
  · intro h
    obtain ⟨text, result, htext, hresult, hread, -⟩ := h 0
    obtain ⟨result', hresult', hevents⟩ := l.importJsonl_exported 0
    rw [exportJsonl_eq] at htext
    cases htext
    rw [hresult'] at hresult
    cases hresult
    rw [hevents, readAll_replayInto, l.reads] at hread
    exact hself.mp (Except.ok.inj hread)
  · intro h exportedAt
    obtain ⟨result, hresult, hevents⟩ := l.importJsonl_exported exportedAt
    have hread := l.readAll_replayInto
    rw [hself.mpr h] at hread
    refine ⟨_, result, l.exportJsonl_eq exportedAt, hresult, ?_⟩
    rw [hevents, hread, l.reads]
    refine ⟨rfl, fun n hn ↦ ?_⟩
    obtain ⟨p, hp⟩ := EventStore.exists_replay_of_rebuildProjections l.reads hn
    obtain ⟨t, hrows, hreplay⟩ := l.replayInto_entries
    have ht : t.readAll = .ok l.entries := by
      rw [EventStore.readAll, hrows, mapM_replayRow l.settled, hself.mpr h]
    rw [hreplay, EventStore.rebuildProjections_of_replay ht hp,
      EventStore.rebuildProjections_of_replay l.reads hp]
    exact ⟨rfl, rfl⟩

/-- **Export, import, replay.** The round trip is faithful exactly if whatever was stored as
`unknown` holds something this build does not know, under the type it claims. -/
theorem roundTrips_iff : l.RoundTrips ↔ ∀ row ∈ l.events.rows, WrapsUnknown row.payload := by
  have hiff : ∀ row e, rowToEvent row = .ok e → (e.replayed = e ↔ WrapsUnknown row.payload) := by
    intro row e h
    obtain ⟨-, hpayload⟩ := rowToEvent_eq_ok_iff.mp h
    rw [← replayed_reread_iff, ← hpayload]
    exact ⟨congrArg HarnessEvent.payload, congrArg (HarnessEvent.mk e.toEventEnvelope)⟩
  rw [roundTrips_iff_replayed]
  constructor
  · exact forall_mem_of_forall₂ l.rows_entries.flip fun e row h ↦ (hiff row e h).mp
  · exact forall_mem_of_forall₂ l.rows_entries fun row e h ↦ (hiff row e h).mpr

/-! ### The log of a run of appends -/

/-- Numbers that are distinct within every thread make distinct columns. -/
theorem nodup_numbers {es : List HarnessEvent}
    (h : ∀ t, ((es.filter fun e ↦ e.threadId = t).map fun e ↦ e.seq).Nodup) :
    (es.map fun e ↦ (e.threadId, e.seq)).Nodup := by
  induction es with
  | nil => exact List.nodup_nil
  | cons e es ih =>
    rw [List.map_cons, List.nodup_cons]
    constructor
    · intro hmem
      obtain ⟨e', he', heq⟩ := List.mem_map.mp hmem
      obtain ⟨hthread, hseq⟩ := Prod.mk.inj heq
      have hown := h e.threadId
      rw [List.filter_cons, if_pos (decide_eq_true rfl), List.map_cons, List.nodup_cons] at hown
      refine hown.1 (List.mem_map.mpr ⟨e', List.mem_filter.mpr ⟨he', ?_⟩, hseq⟩)
      exact decide_eq_true hthread
    · refine ih fun t ↦ (h t).sublist ?_
      exact ((List.sublist_cons_self e es).filter _).map _

/-- Whatever is appended to a new store, in any order, is a log that can be exported. -/
def ofRecorded {s : EventStore} {es : List HarnessEvent} (h : EventStore.Recorded s es) :
    EventLog where
  toEventStore := s
  textual row hrow := by
    rw [h.rows] at hrow
    obtain ⟨e, -, rfl⟩ := List.mem_map.mp hrow
    exact Value.viaJson_viaJson _
  unique := by
    rw [h.rows, List.map_map]
    refine nodup_numbers fun t ↦ ?_
    rw [h.numbered]
    exact List.nodup_range.map fun _ _ heq ↦ Int.ofNat_inj.mp heq
  entries := es.map HarnessEvent.stored
  reads := h.readAll

/-- An event is appended as `unknown`, with a payload inside that this build knows. -/
def wrappedRename : EventStore.AppendCall where
  input :=
    { threadId := "thr_000001"
      payload := .unknown "thread-renamed"
        (.obj [("type", .str "thread-renamed"), ("name", .str "new")])
      actor := ⟨.system, "act_import1", none⟩, correlationId := "cor_000001"
      causationId := none, turnId := none, itemId := none, permissionProfile := .ask }
  draw := { id := "evt_000001", now := 0 }

def wrappedLog : EventLog :=
  .ofRecorded (@EventStore.recorded_appendAll .none [wrappedRename] .empty []
    EventStore.recorded_empty)

/-- After the replay the thread is renamed, which it never was in the source. -/
theorem not_roundTrips_wrappedLog : ¬ wrappedLog.RoundTrips := by
  intro h
  have hreplayed := wrappedLog.roundTrips_iff_replayed.mp h
  have hsame : wrappedLog.entries.map (·.replayed.payload.isUnknown) =
      wrappedLog.entries.map (·.payload.isUnknown) :=
    List.map_congr_left fun e he ↦ congrArg (·.payload.isUnknown) (hreplayed e he)
  exact absurd hsame (by decide +kernel)

end EventLog

end QwenHarness
