import Mathlib.Data.List.TakeWhile
import QwenHarness.Storage.AppendLog

/-!
# The ledger of side effects

What the three events of a side effect write, and what the ledger answers afterwards. An intent adds
a row, a start and a settlement change the state of one. The answer for a key is that of its newest
row, so a row that is added counts only if it is newer than every other one under its key.
-/

namespace QwenHarness

open Codec

/-! ## What is stored of the events of a side effect

Redaction may change the texts of a payload. An identifier, a name of an enumeration and the tag of
the payload hold no bracket, so what is stored has them unchanged. -/

/-- An identifier holds no bracket. -/
theorem clean_of_idPattern {s : String} (h : idPattern s = true) : '[' ∉ s.toList := by
  obtain ⟨-, h⟩ := Bool.and_eq_true_iff.mp h
  intro hmem
  rw [← @List.takeWhile_append_dropWhile _ Char.isLower s.toList, List.mem_append] at hmem
  rcases hmem with hmem | hmem
  · exact absurd (List.mem_takeWhile_imp hmem) (by decide)
  · split at h
    · rename_i rest heq
      rw [heq] at hmem
      rcases List.mem_cons.mp hmem with hmem | hmem
      · exact absurd hmem (by decide)
      · exact absurd (List.all_eq_true.mp (Bool.and_eq_true_iff.mp h).2 _ hmem) (by decide)
    · cases h

theorem clean_of_isId {kind s : String} (h : isId kind s = true) : '[' ∉ s.toList :=
  clean_of_idPattern (Bool.and_eq_true_iff.mp h).1

namespace Redactor

variable {r : Redactor}

/-- A string is read as it stands. -/
theorem dec_string {check : String → Bool} {s t : String}
    (h : (Schema.string check).dec (.str s) = some t) : t = s ∧ check t = true := by
  obtain ⟨hc, ht⟩ := Option.ite_none_right_eq_some.mp h
  cases ht
  exact ⟨rfl, hc⟩

/-- An identifier is stored as it was. -/
theorem dec_id {kind s t : String} (h : (idSchema kind).dec (.str (r.redact s)) = some t) :
    t = s := by
  obtain ⟨rfl, hc⟩ := dec_string h
  exact (r.redact_eq_of_clean rfl (clean_of_isId hc)).symm

/-- A name of an enumeration is stored as it was. -/
theorem dec_enumeration {α : Type} {all : List α} {name : α → String} {mem_all : ∀ a, a ∈ all}
    {nodup : (all.map name).Nodup} {a b : α} (hclean : ∀ a, '[' ∉ (name a).toList)
    (h : (Schema.enumeration all name mem_all nodup).dec (.str (r.redact (name a))) = some b) :
    b = a := by
  have hfind : all.find? (fun c ↦ name c == r.redact (name a)) = some b := h
  have hname : name b = r.redact (name a) := by simpa using List.find?_some hfind
  have hsame : name a = name b := r.redact_eq_of_clean hname.symm (hclean b)
  exact List.inj_on_of_nodup_map nodup (mem_all b) (mem_all a) hsame.symm

/-- What a field of a redacted object is read from. -/
theorem field_dec {α : Type} {name : String} {S : Schema α} {kvs : List (String × Value)} {a : α}
    (hname : '[' ∉ name.toList)
    (h : (Fields.field name S).dec ((r.redactEntries kvs []).lookup ·) = some a) :
    ∃ v, (name, v) ∈ kvs ∧ S.dec (r.redactField name v) = some a := by
  rw [Fields.field_dec] at h
  obtain ⟨w, hw, hdec⟩ := Option.bind_eq_some_iff.mp h
  rcases r.lookup_redactEntries hname hw with ⟨v, hv, rfl⟩ | hw
  · exact ⟨v, hv, hdec⟩
  · cases hw

end Redactor

/-- The characters of the tags. -/
def tagChars : { table : List (List Char) //
    (payloadVariants.map Variant.tag).map String.toList = table } := by
  apply Subtype.mk
  unfold payloadVariants
  repeat' first
    | with_reducible apply toList_eq; rfl
    | apply map_toList_cons
    | exact List.map_nil

theorem clean_tags : ∀ t ∈ payloadVariants.map Variant.tag, '[' ∉ t.toList := by
  have hchars : ∀ cs ∈ tagChars.val, '[' ∉ cs := by decide
  rw [← tagChars.property] at hchars
  exact fun t ht ↦ hchars _ (List.mem_map_of_mem ht)

namespace EventStore

variable {r : Redactor}

/-- A payload is stored under the tag it had. -/
theorem dec_redacted (tag : String) {kvs : List (String × Value)} {p : EventPayload}
    (htag : ∀ v, ("type", v) ∈ kvs → v = .str tag)
    (h : payloadSchema.dec (.obj (r.redactEntries kvs [])) = some p) :
    Variant.dec tag ((r.redactEntries kvs []).lookup ·) payloadVariants = some p := by
  have hfields : payloadUnion.fields.dec ((r.redactEntries kvs []).lookup ·) = some p := h
  obtain ⟨t, ht, hdec⟩ := payloadUnion.tag_of_dec hfields
  rcases r.lookup_redactEntries (by decide) ht with ⟨v, hv, hw⟩ | hw
  · rw [htag v hv, r.redactField_str (by decide +kernel), Value.str.injEq] at hw
    have hclean := clean_tags t (Variant.mem_tags_of_dec hdec)
    rw [r.redact_eq_of_clean hw.symm hclean]
    exact hdec
  · cases hw

/-- The id of a side effect is read as it was given. -/
theorem dec_id_field {kvs : List (String × Value)} {id id' : String}
    (hid : ∀ v, ("sideEffectId", v) ∈ kvs → v = .str id)
    (h : (Fields.field "sideEffectId" sideEffectIdSchema).dec
      ((r.redactEntries kvs []).lookup ·) = some id') : id' = id := by
  obtain ⟨v, hv, h⟩ := Redactor.field_dec (by decide) h
  rw [hid v hv, r.redactField_str (by decide +kernel)] at h
  exact Redactor.dec_id h

theorem storedPayload_started {id : String} {p : EventPayload}
    (h : storedPayload r (.sideEffectStarted id) = some p) : p = .sideEffectStarted id := by
  have henc : payloadSchema.enc (.sideEffectStarted id) =
      .obj [("type", .str "side-effect-started"), ("sideEffectId", .str id)] := rfl
  have hvariant : ∀ look, Variant.dec "side-effect-started" look payloadVariants =
      ((Fields.field "sideEffectId" sideEffectIdSchema).dec look).map .sideEffectStarted :=
    fun _ ↦ rfl
  rw [storedPayload, henc, Redactor.redactValue] at h
  have hdec := dec_redacted "side-effect-started" (by simp) h
  rw [hvariant] at hdec
  obtain ⟨id', hid, rfl⟩ := Option.map_eq_some_iff.mp hdec
  have hsame : id' = id := dec_id_field (by simp) hid
  rw [hsame]

theorem storedPayload_settled {id : String} {state : SideEffectState} {digest : Option String}
    {p : EventPayload} (h : storedPayload r (.sideEffectSettled id state digest) = some p) :
    ∃ digest', p = .sideEffectSettled id state digest' := by
  have henc : payloadSchema.enc (.sideEffectSettled id state digest) =
      .obj [("type", .str "side-effect-settled"), ("sideEffectId", .str id),
        ("state", .str state.name), ("resultDigest", nullableText.enc digest)] := rfl
  have hvariant : ∀ look, Variant.dec "side-effect-settled" look payloadVariants =
      (((Fields.field "sideEffectId" sideEffectIdSchema).and
        ((Fields.field "state" sideEffectStateSchema).and
          (Fields.field "resultDigest" nullableText))).dec look).map
        fun b ↦ .sideEffectSettled b.1 b.2.1 b.2.2 := fun _ ↦ rfl
  rw [storedPayload, henc, Redactor.redactValue] at h
  have hdec := dec_redacted "side-effect-settled" (by simp) h
  rw [hvariant] at hdec
  obtain ⟨⟨id', state', digest'⟩, hfields, rfl⟩ := Option.map_eq_some_iff.mp hdec
  obtain ⟨hid, hfields⟩ := Fields.and_dec.mp hfields
  obtain ⟨hstate, -⟩ := Fields.and_dec.mp hfields
  obtain ⟨v, hv, hstate⟩ := Redactor.field_dec (by decide) hstate
  have hv : v = .str state.name := by simpa using hv
  rw [hv, r.redactField_str (by decide +kernel)] at hstate
  have hname : ∀ state : SideEffectState, '[' ∉ state.name.toList := by
    intro state
    cases state <;> decide
  have hsame : id' = id := dec_id_field (by simp) hid
  rw [hsame, Redactor.dec_enumeration hname hstate]
  exact ⟨digest', rfl⟩

/-- Of an intent, the key and the text of the action are redacted. -/
def redactIntent (r : Redactor) (i : SideEffectIntent) : SideEffectIntent :=
  { i with
    idempotencyKey := r.redact i.idempotencyKey
    normalizedAction := r.redact i.normalizedAction }

theorem storedPayload_intent {i : SideEffectIntent} {p : EventPayload}
    (h : storedPayload r (.sideEffectIntent i) = some p) :
    p = .sideEffectIntent (redactIntent r i) := by
  have henc : payloadSchema.enc (.sideEffectIntent i) =
      .obj [("type", .str "side-effect-intent"), ("intent", .obj
        [("sideEffectId", .str i.sideEffectId), ("idempotencyKey", .str i.idempotencyKey),
          ("kind", .str i.kind.name), ("destructive", .bool i.destructive),
          ("normalizedAction", .str i.normalizedAction)])] := rfl
  have hvariant : ∀ look, Variant.dec "side-effect-intent" look payloadVariants =
      ((Fields.field "intent" (.object sideEffectIntentFields)).dec look).map .sideEffectIntent :=
    fun _ ↦ rfl
  rw [storedPayload, henc, Redactor.redactValue] at h
  have hdec := dec_redacted "side-effect-intent" (by simp) h
  rw [hvariant] at hdec
  obtain ⟨i', hintent, rfl⟩ := Option.map_eq_some_iff.mp hdec
  obtain ⟨v, hv, hintent⟩ := Redactor.field_dec (by decide) hintent
  have hv : v = .obj
      [("sideEffectId", .str i.sideEffectId), ("idempotencyKey", .str i.idempotencyKey),
        ("kind", .str i.kind.name), ("destructive", .bool i.destructive),
        ("normalizedAction", .str i.normalizedAction)] := by simpa using hv
  rw [hv, r.redactField_obj] at hintent
  obtain ⟨⟨id, key, kind, destructive, action⟩, hfields, rfl⟩ :=
    Option.map_eq_some_iff.mp (show (Option.map _ _) = _ from hintent)
  obtain ⟨hid, hfields⟩ := Fields.and_dec.mp hfields
  obtain ⟨hkey, hfields⟩ := Fields.and_dec.mp hfields
  obtain ⟨hkind, hfields⟩ := Fields.and_dec.mp hfields
  obtain ⟨hdestructive, haction⟩ := Fields.and_dec.mp hfields
  have hsame : id = i.sideEffectId := dec_id_field (by simp) hid
  obtain ⟨v, hv, hkey⟩ := Redactor.field_dec (by decide) hkey
  have hv : v = .str i.idempotencyKey := by simpa using hv
  rw [hv, r.redactField_str (by decide +kernel)] at hkey
  obtain ⟨v, hv, hkind⟩ := Redactor.field_dec (by decide) hkind
  have hv : v = .str i.kind.name := by simpa using hv
  rw [hv, r.redactField_str (by decide +kernel)] at hkind
  have hname : ∀ kind : SideEffectKind, '[' ∉ kind.name.toList := by
    intro kind
    cases kind <;> decide
  obtain ⟨v, hv, hdestructive⟩ := Redactor.field_dec (by decide) hdestructive
  have hv : v = .bool i.destructive := by simpa using hv
  rw [hv, r.redactField_bool] at hdestructive
  obtain ⟨v, hv, haction⟩ := Redactor.field_dec (by decide) haction
  have hv : v = .str i.normalizedAction := by simpa using hv
  rw [hv, r.redactField_str (by decide +kernel)] at haction
  rw [hsame, (Redactor.dec_string hkey).1, Redactor.dec_enumeration hname hkind,
    ← Option.some.inj hdestructive, (Redactor.dec_string haction).1]
  rfl

/-! ## What the ledger becomes -/

/-- The row of an intent. -/
def intentRow (input : AppendInput) (turnId : String) (i : SideEffectIntent) (now : ℤ) :
    SideEffectRow where
  id := i.sideEffectId
  threadId := input.threadId
  turnId := turnId
  idempotencyKey := i.idempotencyKey
  kind := i.kind
  destructive := i.destructive
  normalizedAction := i.normalizedAction
  state := .notStarted
  resultDigest := none
  createdAt := now
  settledAt := none

theorem rows_updateSideEffect {p : Projection} {id : String} {f : SideEffectRow → SideEffectRow}
    (hf : ∀ x, (f x).id = x.id) :
    (p.updateSideEffect id f hf).sideEffects.rows =
      p.sideEffects.rows.map fun x ↦ if x.id = id then f x else x :=
  Keyed.rows_modify hf

section Rows

variable {input : AppendInput} {draw : Draw} {s s' : EventStore} {e : HarnessEvent} {id : String}

/-- **An intent** adds its row. -/
theorem ledger_of_intent {i : SideEffectIntent} (h : append r input draw s = (.ok e, s'))
    (hp : input.payload = .sideEffectIntent i) :
    ∃ turnId, s'.projection.sideEffects.rows = s.projection.sideEffects.rows ++
      [intentRow input turnId (redactIntent r i) draw.now] := by
  have happ := appended_of_append h
  have hpayload : e.payload = .sideEffectIntent (redactIntent r i) :=
    storedPayload_intent (hp ▸ happ.payload)
  have hthread : e.threadId = input.threadId := congrArg EventEnvelope.threadId happ.envelope
  have htime : e.timestamp = draw.now := congrArg EventEnvelope.timestamp happ.envelope
  have hproj := happ.projected
  rw [Projection.project, hpayload] at hproj
  obtain ⟨turnId, -, hproj⟩ := Option.bind_eq_some_iff.mp hproj
  obtain ⟨sideEffects, hinsert, hproj⟩ := Option.bind_eq_some_iff.mp hproj
  refine ⟨turnId, ?_⟩
  rw [← Option.some.inj hproj]
  refine (Keyed.rows_of_insert hinsert).trans ?_
  rw [hthread, htime]
  rfl

/-- **A start** marks its row. -/
theorem ledger_of_started (h : append r input draw s = (.ok e, s'))
    (hp : input.payload = .sideEffectStarted id) :
    s'.projection.sideEffects.rows = s.projection.sideEffects.rows.map fun x ↦
      if x.id = id then { x with state := .inFlight } else x := by
  have happ := appended_of_append h
  have hpayload : e.payload = .sideEffectStarted id := storedPayload_started (hp ▸ happ.payload)
  have hproj := happ.projected
  rw [Projection.project, hpayload] at hproj
  rw [← Option.some.inj hproj]
  exact rows_updateSideEffect (by intro x; rfl)

/-- **A settlement** marks its row as settled. -/
theorem ledger_of_settled {state : SideEffectState} {digest : Option String}
    (h : append r input draw s = (.ok e, s'))
    (hp : input.payload = .sideEffectSettled id state digest) :
    ∃ digest', s'.projection.sideEffects.rows = s.projection.sideEffects.rows.map fun x ↦
      if x.id = id then
        { x with state, resultDigest := digest', settledAt := some draw.now } else x := by
  have happ := appended_of_append h
  obtain ⟨digest', hpayload⟩ := storedPayload_settled (hp ▸ happ.payload)
  have htime : e.timestamp = draw.now := congrArg EventEnvelope.timestamp happ.envelope
  have hproj := happ.projected
  rw [Projection.project, hpayload] at hproj
  refine ⟨digest', ?_⟩
  rw [← Option.some.inj hproj, ← htime]
  exact rows_updateSideEffect (by intro x; rfl)

/-- **Recovery** marks every row that was in flight. -/
theorem ledger_of_recover (s : EventStore) :
    s.recoverInterrupted.2.projection.sideEffects.rows = s.projection.sideEffects.rows.map fun x ↦
      if x.state = .inFlight then { x with state := .indeterminate } else x := by
  have hrows : s.recoverInterrupted.2.projection.sideEffects.rows =
      s.projection.sideEffects.rows.map fun x ↦
        if decide (x.state = .inFlight) then { x with state := .indeterminate } else x := rfl
  rw [hrows]
  simp only [decide_eq_true_eq]

end Rows

end EventStore

/-! ## What the ledger answers -/

/-- A row in this state lets its side effect run. -/
def SideEffectState.allows (state : SideEffectState) : Bool :=
  (EventStore.mayExecuteIn (some state)).allowed

namespace EventStore

section Answers

variable {s s' : EventStore} {k : String}

theorem latestAttempt_eq_newest : s.latestAttempt k = Keyed.newest SideEffectRow.createdAt
    (fun x ↦ x.idempotencyKey = k) s.projection.sideEffects.rows := rfl

/-- A side effect may run unless the newest row of its key is in its way. -/
theorem allowed_iff :
    (s.mayExecute k).allowed = true ↔ ∀ row ∈ s.latestAttempt k, row.state.allows = true := by
  rw [mayExecute, sideEffectState]
  cases s.latestAttempt k with
  | none => simp [mayExecuteIn]
  | some row => simp [SideEffectState.allows]

/-- A row that is added lets its key run if it is the newest. -/
theorem allowed_concat {row : SideEffectRow} (hrow : row.state.allows = true)
    (h : s'.projection.sideEffects.rows = s.projection.sideEffects.rows ++ [row]) :
    (s'.mayExecute k).allowed = true ↔
      (row.idempotencyKey = k ∧ ∀ x ∈ s.projection.sideEffects.rows, x.idempotencyKey = k →
        x.createdAt < row.createdAt) ∨ (s.mayExecute k).allowed = true := by
  rw [allowed_iff, allowed_iff, latestAttempt_eq_newest, h, Keyed.newest_concat,
    ← latestAttempt_eq_newest]
  simp only [decide_eq_true_eq]
  split
  · rename_i hnew
    exact iff_of_true (by simpa using hrow) (.inl hnew)
  · rename_i hold
    exact (or_iff_right hold).symm

/-- An update of the states leaves the newest row of every key the newest. -/
theorem allowed_map {f : SideEffectRow → SideEffectRow} (hkey : ∀ x, (f x).idempotencyKey =
      x.idempotencyKey) (htime : ∀ x, (f x).createdAt = x.createdAt)
    (h : s'.projection.sideEffects.rows = s.projection.sideEffects.rows.map f) :
    (s'.mayExecute k).allowed = true ↔
      ∀ row ∈ s.latestAttempt k, (f row).state.allows = true := by
  rw [allowed_iff, latestAttempt_eq_newest, h,
    Keyed.newest_map htime (fun x ↦ by rw [hkey]), ← latestAttempt_eq_newest]
  simp

end Answers

end EventStore

end QwenHarness

/-!
## Where the outcome of a side effect shows

A row that was only announced says nothing of how the side effect ended. Once it is started it does:
it is in flight, indeterminate, complete or failed. An intent shows nothing, a start shows the row
it starts, and what was shown once stays shown.
-/

namespace QwenHarness.EventStore

/-- The outcome under a key shows: one of its rows is past its intent. -/
def OutcomeShows (s : EventStore) (k : String) : Prop :=
  ∃ row ∈ s.projection.sideEffects.rows, row.idempotencyKey = k ∧ row.state ≠ .notStarted

/-- The row with this id stands under this key. -/
def RowUnder (s : EventStore) (id k : String) : Prop :=
  ∃ row ∈ s.projection.sideEffects.rows, row.id = id ∧ row.idempotencyKey = k

variable {r : Redactor} {input : AppendInput} {draw : Draw} {s s' : EventStore} {e : HarnessEvent}
  {id k : String}

/-- An id has one row. -/
theorem RowUnder.key_eq {k' : String} (h : RowUnder s id k) (h' : RowUnder s id k') : k = k' := by
  obtain ⟨x, hx, hid, rfl⟩ := h
  obtain ⟨y, hy, hid', rfl⟩ := h'
  rw [Keyed.eq_of_key_eq hx hy (hid.trans hid'.symm)]

/-- What refuses a key is a row that shows. -/
theorem outcomeShows_of_refused (h : (s.mayExecute k).allowed = false) : s.OutcomeShows k := by
  have hnot : ¬ ∀ row ∈ s.latestAttempt k, row.state.allows = true :=
    fun hall ↦ absurd (h.symm.trans (allowed_iff.mpr hall)) Bool.false_ne_true
  obtain ⟨row, hrow, hstate⟩ : ∃ row ∈ s.latestAttempt k, ¬ row.state.allows = true := by
    simpa using hnot
  obtain ⟨hmem, hkey⟩ := Keyed.mem_of_newest (latestAttempt_eq_newest ▸ hrow)
  refine ⟨row, hmem, of_decide_eq_true hkey, fun he ↦ hstate ?_⟩
  rw [he]
  rfl

/-! ## An intent -/

section Intent

variable {i : SideEffectIntent} (h : append r input draw s = (.ok e, s'))
  (hp : input.payload = .sideEffectIntent i)

include h hp

/-- An intent shows nothing. -/
theorem outcomeShows_intent : s'.OutcomeShows k ↔ s.OutcomeShows k := by
  obtain ⟨turnId, hrows⟩ := ledger_of_intent h hp
  rw [OutcomeShows, hrows, OutcomeShows]
  constructor
  · rintro ⟨row, hrow, hkey, hstate⟩
    rcases List.mem_append.mp hrow with hrow | hrow
    · exact ⟨row, hrow, hkey, hstate⟩
    · rw [List.mem_singleton.mp hrow] at hstate
      exact absurd rfl hstate
  · rintro ⟨row, hrow, hshows⟩
    exact ⟨row, List.mem_append_left _ hrow, hshows⟩

theorem rowUnder_intent : s'.RowUnder i.sideEffectId (r.redact i.idempotencyKey) := by
  obtain ⟨turnId, hrows⟩ := ledger_of_intent h hp
  rw [RowUnder, hrows]
  exact ⟨_, List.mem_append_right _ (List.mem_singleton_self _), rfl, rfl⟩

/-- The answer for another key stays. -/
theorem allowed_intent (hk : r.redact i.idempotencyKey ≠ k) :
    (s'.mayExecute k).allowed = (s.mayExecute k).allowed := by
  obtain ⟨turnId, hrows⟩ := ledger_of_intent h hp
  have hrow : (intentRow input turnId (redactIntent r i) draw.now).state.allows = true := rfl
  rw [Bool.eq_iff_iff, allowed_concat hrow hrows]
  exact or_iff_right fun hnew ↦ hk hnew.1

end Intent

/-! ## A start and a settlement -/

section Update

variable {state : SideEffectState}

/-- A state is written to the row with this id. -/
structure Marks (id : String) (state : SideEffectState) (s s' : EventStore) : Prop where
  rows : ∃ f : SideEffectRow → SideEffectRow,
    s'.projection.sideEffects.rows =
        s.projection.sideEffects.rows.map (fun x ↦ if x.id = id then f x else x) ∧
      ∀ x, (f x).id = x.id ∧ (f x).idempotencyKey = x.idempotencyKey ∧
        (f x).createdAt = x.createdAt ∧ (f x).state = state

theorem marks_started (h : append r input draw s = (.ok e, s'))
    (hp : input.payload = .sideEffectStarted id) : Marks id .inFlight s s' :=
  ⟨_, ledger_of_started h hp, fun _ ↦ ⟨rfl, rfl, rfl, rfl⟩⟩

theorem marks_settled {digest : Option String} (h : append r input draw s = (.ok e, s'))
    (hp : input.payload = .sideEffectSettled id state digest) : Marks id state s s' := by
  obtain ⟨digest', hrows⟩ := ledger_of_settled h hp
  exact ⟨_, hrows, fun _ ↦ ⟨rfl, rfl, rfl, rfl⟩⟩

theorem Marks.rowUnder {id' : String} (h : Marks id state s s') (hs : s.RowUnder id' k) :
    s'.RowUnder id' k := by
  obtain ⟨f, hrows, hf⟩ := h.rows
  obtain ⟨row, hrow, hid, hkey⟩ := hs
  rw [RowUnder, hrows]
  refine ⟨_, List.mem_map_of_mem hrow, ?_⟩
  by_cases hx : row.id = id
  · rw [if_pos hx, (hf row).1, (hf row).2.1]
    exact ⟨hid, hkey⟩
  · rw [if_neg hx]
    exact ⟨hid, hkey⟩

/-- What shows afterwards showed before, or is the key of the row. -/
theorem Marks.outcomeShows (h : Marks id state s s') (hstate : state ≠ .notStarted) :
    s'.OutcomeShows k ↔ s.OutcomeShows k ∨ s.RowUnder id k := by
  obtain ⟨f, hrows, hf⟩ := h.rows
  rw [OutcomeShows, hrows, OutcomeShows, RowUnder]
  constructor
  · rintro ⟨_, hy, hkey, hshows⟩
    obtain ⟨row, hrow, rfl⟩ := List.mem_map.mp hy
    by_cases hx : row.id = id
    · rw [if_pos hx, (hf row).2.1] at hkey
      exact .inr ⟨row, hrow, hx, hkey⟩
    · rw [if_neg hx] at hkey hshows
      exact .inl ⟨row, hrow, hkey, hshows⟩
  · rintro (⟨row, hrow, hkey, hshows⟩ | ⟨row, hrow, hx, hkey⟩)
    · refine ⟨_, List.mem_map_of_mem hrow, ?_⟩
      by_cases hx : row.id = id
      · rw [if_pos hx, (hf row).2.1, (hf row).2.2.2]
        exact ⟨hkey, hstate⟩
      · rw [if_neg hx]
        exact ⟨hkey, hshows⟩
    · refine ⟨_, List.mem_map_of_mem hrow, ?_⟩
      rw [if_pos hx, (hf row).2.1, (hf row).2.2.2]
      exact ⟨hkey, hstate⟩

/-- The answer for another key stays. -/
theorem Marks.allowed (h : Marks id state s s') {k' : String} (hs : s.RowUnder id k')
    (hk : k' ≠ k) : (s'.mayExecute k).allowed = (s.mayExecute k).allowed := by
  obtain ⟨f, hrows, hf⟩ := h.rows
  have hkeys : ∀ x : SideEffectRow, (if x.id = id then f x else x).idempotencyKey =
      x.idempotencyKey ∧ (if x.id = id then f x else x).createdAt = x.createdAt := by
    intro x
    by_cases hx : x.id = id
    · rw [if_pos hx]
      exact ⟨(hf x).2.1, (hf x).2.2.1⟩
    · rw [if_neg hx]
      exact ⟨rfl, rfl⟩
  rw [Bool.eq_iff_iff, allowed_map (fun x ↦ (hkeys x).1) (fun x ↦ (hkeys x).2) hrows, allowed_iff]
  refine forall₂_congr fun row hrow ↦ ?_
  obtain ⟨hmem, hkey⟩ := Keyed.mem_of_newest (latestAttempt_eq_newest ▸ hrow)
  rw [if_neg]
  intro hx
  exact hk (RowUnder.key_eq hs ⟨row, hmem, hx, of_decide_eq_true hkey⟩)

end Update

end QwenHarness.EventStore
