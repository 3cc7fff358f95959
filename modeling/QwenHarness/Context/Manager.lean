import QwenHarness.Context.Answered
import QwenHarness.Context.Compaction
import QwenHarness.Context.Kept
import QwenHarness.Runtime.TurnEngine

/-!
# The context manager of the command line

Before every request the conversation is reduced, and if it is still too large, what is older than
the last four items is replaced by a summary. A compaction that fails, or frees too little, is as if
it had not been tried.

The results of the recent items may belong to older calls. Where a compaction takes such a call and
leaves its result, the result is left without a call: `prepare_keeps` says that there is no other
way.
-/

namespace QwenHarness.Context

open EventStore (AppendInput)
open Effect

/-! ## Names of stored texts -/

/-- `Math.imul`. -/
def imul (a b : UInt32) : UInt32 := a * b

/-- The hash that names stored results and spans of the conversation. -/
def stableHash (input : String) : String :=
  let (h1, h2) := (Utf16.ofString input).foldl
    (fun (h1, h2) u ↦
      (imul (h1 ^^^ UInt32.ofNat u.val) 2654435761, imul (h2 ^^^ UInt32.ofNat u.val) 1597334677))
    ((0xdeadbeef : UInt32), (0x41c6ce57 : UInt32))
  let h1 := imul (h1 ^^^ (h1 >>> 16)) 2246822507
  let h1 := h1 ^^^ imul (h2 ^^^ (h2 >>> 13)) 3266489909
  let h2 := imul (h2 ^^^ (h2 >>> 16)) 2246822507
  let h2 := h2 ^^^ imul (h1 ^^^ (h1 >>> 13)) 3266489909
  let digits := Nat.toDigits 16 (4294967296 * (h2.toNat &&& 2097151) + h1.toNat)
  String.ofList (List.replicate (14 - digits.length) '0' ++ digits)

def digestTranscript (items : List ModelInputItem) : String :=
  stableHash (join "\x00" (items.map serializeInputItem))

/-! ## The manager -/

structure ContextManagerOptions (σ : Type) where
  append : AppendInput → Call σ Unit
  putBlob : (digest data : String) → Call σ Unit
  contextWindow : ℚ
  now : σ → ℤ × σ
  nextItemId : σ → String × σ
  actor : Actor
  reserveFraction : Option ℚ
  /-- What the summarizer answers: nothing where it has not the shape of a draft. -/
  summarizer : SummarizerInput → Call σ (Option SummaryDraft)
  /-- What is wrong with a draft. -/
  issues : Option SummaryDraft → String
  offloadThresholdChars : Option ℚ
  onUtilization : Option (Option ℚ → Call σ Unit)
  onCompaction : Option (CompactionResult → Call σ Unit)
  preCompact : Option (CompactionTrigger → ℕ → Call σ Unit)
  /-- The double nearest to a number. -/
  nearest : ℚ → ℚ

/-- The summarizer that needs no model. Only the tasks come from outside. -/
def deterministicSummarizer {σ : Type} (tasksProvider : Call σ (List String))
    (activeFiles : List ModelInputItem → List String) (input : SummarizerInput) :
    Call σ (Option SummaryDraft) := fun s ↦
  match tasksProvider s with
  | (.ok tasks, s') => (.ok (some (deterministicDraft tasks activeFiles input.items)), s')
  | (.error e, s') => (.error e, s')

/-- The manager's own records, beside the outside. -/
structure ManagerState (σ : Type) where
  outside : σ
  itemSeq : ℕ
  lastUtilization : Option ℚ
  compactionCount : ℕ

/-- What a request for preparation tells of its turn. -/
structure PrepareCall where
  conversation : List ModelInputItem
  instructions : String
  threadId : String
  turnId : String
  correlationId : String
  permissionProfile : PermissionProfile
deriving Repr

abbrev Manager (σ : Type) := EStateM Thrown (ManagerState σ)

def keepRecent : ℕ := 4

def defaultOffloadThresholdChars : ℚ := 4096

section Prepare

variable {σ α : Type} (options : ContextManagerOptions σ)

def outside (call : Call σ α) : Manager σ α := fun s ↦
  match call s.outside with
  | (.ok a, outside) => .ok a { s with outside }
  | (.error e, outside) => .error e { s with outside }

def observe (call : σ → α × σ) : Manager σ α := fun s ↦
  .ok (call s.outside).1 { s with outside := (call s.outside).2 }

def nextItemSeq : Manager σ ℕ := fun s ↦ .ok s.itemSeq { s with itemSeq := s.itemSeq + 1 }

/-- Call an observer, if there is one. -/
def tell (observer : Option (α → Call σ Unit)) (a : α) : Manager σ Unit :=
  match observer with
  | some f => outside (f a)
  | none => pure ()

def reductionOptions : ReductionOptions where
  estimate := none
  makeRefId := fun _ _ output _ ↦ "blb_" ++ stableHash output
  offloadThresholdChars := some (options.offloadThresholdChars.getD defaultOffloadThresholdChars)
  preserveRecent := some keepRecent
  previewOptions := ⟨none, none⟩
  targetTokens := none

/-- The results that reduction replaces by references, in their order. -/
def offloadedOutputs (conversation : List ModelInputItem) : List String :=
  let reduction := reductionOptions options
  (conversation.mapIdx fun i item ↦
    match item with
    | .functionOutput _ _ output =>
      (reduction.refOf (reduction.recentStart conversation) i item).map fun _ ↦ output
    | _ => none).reduceOption

/-- What is offloaded is stored in full first. -/
def storeOutputs : List String → Manager σ Unit
  | [] => pure ()
  | output :: outputs => do
    outside (options.putBlob ("blb_" ++ stableHash output) output)
    storeOutputs outputs

def reduce (conversation : List ModelInputItem) : Manager σ ReductionResult := do
  storeOutputs options (offloadedOutputs options conversation)
  pure (reduceContext conversation (reductionOptions options))

/-- Append an item of the manager's own to the log. -/
def appendItem (call : PrepareCall) (body : ItemBody) : Manager σ Unit := do
  let id ← observe options.nextItemId
  let seq ← nextItemSeq
  let createdAt ← observe options.now
  outside (options.append
    { threadId := call.threadId
      payload := .itemAppended
        { base := { id, turnId := call.turnId, threadId := call.threadId, seq, createdAt }, body }
      actor := options.actor, correlationId := call.correlationId, causationId := none
      turnId := some call.turnId, itemId := some id
      permissionProfile := call.permissionProfile })

/-- Record which span is about to be compacted. -/
def writeBoundary (call : PrepareCall) (items : List ModelInputItem)
    (trigger : CompactionTrigger) : Manager σ String := do
  let digest := digestTranscript items
  appendItem options call (.compaction trigger digest
    s!"[boundary marker for {items.length} item(s)]" ⌊estimateItems items defaultTokenEstimator⌋ 0)
  pure digest

/-- Record the span, ask for a summary, check it. -/
def compact (call : PrepareCall) (items : List ModelInputItem) (trigger : CompactionTrigger) :
    Manager σ CompactionResult := do
  let boundaryRef ← writeBoundary options call items trigger
  let raw ← outside (options.summarizer { items, boundaryRef, focus := none })
  match parseDraft raw with
  | some draft => pure (compactionResult defaultTokenEstimator items trigger boundaryRef draft)
  | none => throw (.other ("compaction summary is invalid: " ++ options.issues raw))

def recordCompactionItem (call : PrepareCall) (result : CompactionResult) : Manager σ Unit :=
  appendItem options call (.compaction result.trigger result.boundaryRef result.summary
    ⌊result.tokensBefore⌋ (max 0 ⌊result.tokensAfter⌋))

def uncompacted (items : List ModelInputItem) : ContextPreparation := ⟨items, false, none⟩

def reportedTrigger : CompactionTrigger → Option CompactionTrigger
  | .manual => none
  | trigger => some trigger

/-- Replace what is older than the last four items, if that frees enough. -/
def tryCompaction (call : PrepareCall) (items : List ModelInputItem)
    (trigger : CompactionTrigger) : Manager σ ContextPreparation := do
  let splitAt := items.length - keepRecent
  let result ← compact options call (items.take splitAt) trigger
  match evaluateCompaction options.nearest result none with
  | .noFurtherReduction _ _ _ => pure (uncompacted items)
  | .compacted _ => do
    recordCompactionItem options call result
    modify fun s ↦ { s with compactionCount := s.compactionCount + 1 }
    tell options.onCompaction result
    pure ⟨.message .user result.summary :: items.drop splitAt, true, reportedTrigger result.trigger⟩

/-- Tell the hooks that so many items are about to be compacted. -/
def firePreCompact (trigger : CompactionTrigger) (items : ℕ) : Manager σ Unit :=
  match options.preCompact with
  | some fire => outside (fire trigger items)
  | none => pure ()

def prepare (call : PrepareCall) : Manager σ ContextPreparation := do
  let instructionsOverhead : ℚ := ⌈(textLength call.instructions : ℚ) / 4⌉
  let reduced ← reduce options call.conversation
  let budget := computeBudget options.nearest
    { contextWindow := options.contextWindow, items := reduced.items
      reserveFraction := options.reserveFraction, estimate := none
      fixedOverheadTokens := some instructionsOverhead }
  modify fun s ↦ { s with lastUtilization := budget.utilization }
  tell options.onUtilization budget.utilization
  if budget.overThreshold || budget.overCapacity then
    if reduced.items.length ≤ keepRecent then pure (uncompacted reduced.items)
    else do
      let trigger := if budget.overCapacity then .reactiveOverflow else .proactive
      firePreCompact options trigger (reduced.items.length - keepRecent)
      tryCatch (tryCompaction options call reduced.items trigger) fun _ ↦
        pure (uncompacted reduced.items)
  else pure (uncompacted reduced.items)

/-- A preparation as the engine calls it. -/
def preparation (call : PrepareCall) : Call (ManagerState σ) ContextPreparation := fun s ↦
  match prepare options call s with
  | .ok prep s' => (.ok prep, s')
  | .error e s' => (.error e, s')

/-! ## What a preparation hands back -/

variable {options} {call : PrepareCall}

/-- The conversation after the cheap reduction. -/
def reducedItems (options : ContextManagerOptions σ) (conversation : List ModelInputItem) :
    List ModelInputItem :=
  (reduceContext conversation (reductionOptions options)).items

/-- The draft is an answer of the summarizer about these items, and valid. -/
def Drafted (options : ContextManagerOptions σ) (items : List ModelInputItem)
    (draft : SummaryDraft) : Prop :=
  ∃ boundaryRef raw s s',
    options.summarizer { items, boundaryRef, focus := none } s = (.ok raw, s') ∧
      parseDraft raw = some draft

/-- Either the reduced conversation, or a summary of all but its last four items and these. -/
inductive Prepared (options : ContextManagerOptions σ) (conversation : List ModelInputItem) :
    ContextPreparation → Prop
  | reduced : Prepared options conversation (uncompacted (reducedItems options conversation))
  | compacted (draft : SummaryDraft) (trigger : Option CompactionTrigger)
      (hlong : keepRecent < (reducedItems options conversation).length)
      (hdraft : Drafted options ((reducedItems options conversation).take
        ((reducedItems options conversation).length - keepRecent)) draft) :
      Prepared options conversation
        ⟨.message .user (renderSummary draft.preserved draft.prose) ::
          (reducedItems options conversation).drop
            ((reducedItems options conversation).length - keepRecent), true, trigger⟩

/-- A program that may do anything. -/
theorem any {q : α → ManagerState σ → Prop} {m : Manager σ α}
    (h : ∀ a s s', m s = .ok a s' → q a s') :
    Triple (fun _ ↦ True) m q fun _ _ ↦ True := by
  intro s _
  cases hr : m s with
  | ok a s' => exact h a s s' hr
  | error e s' => trivial

theorem any_bind {β : Type} {q : β → ManagerState σ → Prop} {m : Manager σ α}
    {f : α → Manager σ β} (h : ∀ a, Triple (fun _ ↦ True) (f a) q fun _ _ ↦ True) :
    Triple (fun _ ↦ True) (m >>= f) q fun _ _ ↦ True :=
  .bind (any fun _ _ _ _ ↦ trivial) h

/-- A fact that does not depend on the state. -/
theorem of_fact {c : Prop} {q : α → ManagerState σ → Prop} {m : Manager σ α}
    (h : c → Triple (fun _ ↦ True) m q fun _ _ ↦ True) :
    Triple (fun _ ↦ c) m q fun _ _ ↦ True :=
  fun s hc ↦ h hc s trivial

theorem drafted_compact {items : List ModelInputItem} {trigger : CompactionTrigger} :
    Triple (fun _ ↦ True) (compact options call items trigger)
      (fun result _ ↦ ∃ draft boundaryRef, Drafted options items draft ∧
        result = compactionResult defaultTokenEstimator items trigger boundaryRef draft)
      fun _ _ ↦ True := by
  rw [compact]
  refine any_bind fun boundaryRef ↦ ?_
  refine .bind (s := fun raw _ ↦ ∃ s s',
    options.summarizer { items, boundaryRef, focus := none } s = (.ok raw, s')) ?_ fun raw ↦ ?_
  · refine any fun raw s s' h ↦ ?_
    rw [outside] at h
    split at h
    · next a out heq =>
      cases h
      exact ⟨s.outside, out, heq⟩
    · cases h
  · refine .forExists fun s ↦ .forExists fun s' ↦ ?_
    split
    · next draft hdraft =>
      exact .pure fun _ h ↦ ⟨draft, boundaryRef, ⟨boundaryRef, raw, s, s', h, hdraft⟩, rfl⟩
    · exact .throw fun _ _ ↦ trivial

theorem prepared_tryCompaction {trigger : CompactionTrigger}
    (hlong : keepRecent < (reducedItems options call.conversation).length) :
    Triple (fun _ ↦ True)
      (tryCompaction options call (reducedItems options call.conversation) trigger)
      (fun prep _ ↦ Prepared options call.conversation prep) fun _ _ ↦ True := by
  rw [tryCompaction]
  refine .bind drafted_compact fun result ↦ .forExists fun draft ↦ .forExists fun boundaryRef ↦
    of_fact fun ⟨hdraft, hresult⟩ ↦ ?_
  split
  · exact .pure fun _ _ ↦ .reduced
  · refine any_bind fun _ ↦ any_bind fun _ ↦ any_bind fun _ ↦ .pure fun _ _ ↦ ?_
    rw [hresult]
    exact .compacted draft _ hlong hdraft

/-- **A preparation** hands back the reduced conversation or a compacted one. -/
theorem prepared_prepare : Triple (fun _ ↦ True) (prepare options call)
    (fun prep _ ↦ Prepared options call.conversation prep) fun _ _ ↦ True := by
  rw [prepare]
  refine .bind (s := fun reduced _ ↦ reduced.items = reducedItems options call.conversation) ?_
    fun reduced ↦ of_fact fun hreduced ↦ ?_
  · exact any_bind fun _ ↦ .pure fun _ _ ↦ rfl
  · refine any_bind fun _ ↦ any_bind fun _ ↦ ?_
    rw [hreduced]
    split
    · split
      · exact .pure fun _ _ ↦ .reduced
      · next hlong =>
        refine any_bind fun _ ↦ .tryCatch (prepared_tryCompaction (Nat.not_le.mp hlong)) fun _ ↦ ?_
        exact .pure fun _ _ ↦ .reduced
    · exact .pure fun _ _ ↦ .reduced

theorem ok_of_preparation {s s' : ManagerState σ} {prep : ContextPreparation}
    (h : (.ok prep, s') = preparation options call s) : prepare options call s = .ok prep s' := by
  rw [preparation] at h
  cases hr : prepare options call s with
  | ok a t => rw [hr] at h; cases h; rfl
  | error e t => rw [hr] at h; cases h

theorem prepared_of_prepare {s s' : ManagerState σ} {prep : ContextPreparation}
    (h : prepare options call s = .ok prep s') : Prepared options call.conversation prep :=
  prepared_prepare.ok trivial h

/-! ## What is kept -/

theorem reducedItems_eq (conversation : List ModelInputItem) : reducedItems options conversation =
    shortened conversation (reductionOptions options) :=
  items_of_no_target rfl

theorem rtake_reducedItems (conversation : List ModelInputItem) :
    (reducedItems options conversation).rtake keepRecent = conversation.rtake keepRecent := by
  rw [reducedItems_eq]
  exact rtake_append_recent fun h ↦ front_eq_nil h

/-- Reduction leaves calls and results where they are. -/
theorem filterMap_mark_reducedItems (conversation : List ModelInputItem) :
    (reducedItems options conversation).filterMap mark = conversation.filterMap mark := by
  rw [reducedItems_eq, filterMap_mark_shortened]

theorem isPairingIntact_reducedItems (conversation : List ModelInputItem) :
    isPairingIntact (reducedItems options conversation) = isPairingIntact conversation := by
  rw [isPairingIntact, isPairingIntact, pairingFrom_eq, pairingFrom_eq,
    filterMap_mark_reducedItems]

/-- **What a preparation keeps.** The last four items stand unchanged at the end. Every result still
comes after its call just when nothing was compacted, or none of the last four items is the result
of an older call. -/
theorem prepare_keeps {s s' : ManagerState σ} {prep : ContextPreparation}
    (hpaired : isPairingIntact call.conversation = true)
    (h : prepare options call s = .ok prep s') :
    call.conversation.rtake keepRecent <:+ prep.items ∧
      (isPairingIntact prep.items = true ↔
        prep.compacted = false ∨
          isPairingIntact (call.conversation.rtake keepRecent) = true) := by
  cases prepared_of_prepare h with
  | reduced =>
    refine ⟨?_, iff_of_true ?_ (Or.inl rfl)⟩
    · have hrecent : (reducedItems options call.conversation).rtake keepRecent =
          call.conversation.rtake keepRecent := rtake_reducedItems call.conversation
      rw [uncompacted, ← hrecent]
      exact List.drop_suffix _ _
    · rw [uncompacted, isPairingIntact_reducedItems]
      exact hpaired
  | compacted draft trigger hlong hdraft =>
    have htail : (reducedItems options call.conversation).drop
        ((reducedItems options call.conversation).length - keepRecent) =
          call.conversation.rtake keepRecent := rtake_reducedItems call.conversation
    rw [htail]
    refine ⟨List.suffix_cons _ _, ?_⟩
    simp only [Bool.true_eq_false, false_or]
    exact Iff.rfl

end Prepare

/-! ## A result that loses its call -/

/-- A window of forty tokens, and nothing outside that could fail. -/
def smallWindow : ContextManagerOptions Unit where
  append := fun _ _ ↦ (.ok (), ())
  putBlob := fun _ _ _ ↦ (.ok (), ())
  contextWindow := 40
  now := fun _ ↦ (0, ())
  nextItemId := fun _ ↦ ("itm_000001", ())
  actor := ⟨.system, "act_000001", none⟩
  reserveFraction := none
  summarizer := deterministicSummarizer (fun s ↦ (.ok [], s)) fun _ ↦ []
  issues := fun _ ↦ ""
  offloadThresholdChars := none
  onUtilization := none
  onCompaction := none
  preCompact := none
  nearest := id

/-- Two files are read in one round. -/
def twoReads : PrepareCall where
  conversation :=
    [.message .user "Compare the two files.",
      .functionCall "call_a" "read_file" (String.ofList (List.replicate 200 'x')),
      .functionCall "call_b" "read_file" "{}", .functionOutput "call_a" "read_file" "A",
      .functionOutput "call_b" "read_file" "B", .message .user "And now?"]
  instructions := ""
  threadId := "thr_000001"
  turnId := "trn_000001"
  correlationId := "cor_000001"
  permissionProfile := .ask

def ManagerState.new : ManagerState Unit := ⟨(), 0, none, 0⟩

def wasCompacted : EStateM.Result Thrown (ManagerState Unit) ContextPreparation → Bool
  | .ok prep _ => prep.compacted
  | .error _ _ => false

/-- The first call is compacted away, and its result is not. -/
theorem prepare_keeps_twoReads : ∃ prep s', prepare smallWindow twoReads .new = .ok prep s' ∧
    twoReads.conversation.rtake keepRecent <:+ prep.items ∧ isPairingIntact prep.items = false := by
  have hcompacted : wasCompacted (prepare smallWindow twoReads .new) = true := by decide +kernel
  cases hr : prepare smallWindow twoReads .new with
  | error e s' =>
    rw [hr] at hcompacted
    exact absurd hcompacted Bool.false_ne_true
  | ok prep s' =>
    rw [hr] at hcompacted
    have hcompacted : prep.compacted = true := hcompacted
    obtain ⟨hrecent, hintact⟩ := prepare_keeps (by decide +kernel) hr
    refine ⟨prep, s', rfl, hrecent, Bool.eq_false_iff.mpr fun h ↦ ?_⟩
    rcases hintact.mp h with h | h
    · rw [hcompacted] at h
      exact Bool.false_ne_true h.symm
    · exact absurd h (by decide +kernel)

end QwenHarness.Context

/-!
## Where an answered conversation may be cut

A conversation is answered if its calls and results come in pairs and no call is without a result.
That is a matter of the marks alone, so the cheap reduction keeps it. A compaction keeps the end of
the conversation, and the end is answered just when it has the call of each of its results.
-/

namespace QwenHarness.Context

variable {items more : List ModelInputItem} {id : String} {i j : ℕ} {isCall : Bool}

theorem markAt_of_lt (h : i < items.length) :
    MarkAt items i isCall id ↔ mark items[i] = some (isCall, id) := by
  rw [MarkAt, List.getElem?_eq_getElem h, Option.bind_some]

theorem mem_idsOf_iff_markAt : id ∈ idsOf isCall items ↔ ∃ i, MarkAt items i isCall id := by
  refine ⟨fun h ↦ ?_, fun ⟨_, h⟩ ↦ mem_idsOf_of_markAt h⟩
  obtain ⟨item, hmem, hmark⟩ := mem_idsOf.mp h
  obtain ⟨i, hi, rfl⟩ := List.getElem_of_mem hmem
  exact ⟨i, (markAt_of_lt hi).mpr hmark⟩

/-- No id is used twice just when no two items share one. -/
theorem nodup_idsOf_iff : (idsOf isCall items).Nodup ↔
    ∀ i j id, MarkAt items i isCall id → MarkAt items j isCall id → i = j := by
  have hid : ∀ (item : ModelInputItem) (id : String),
      ((mark item).bind fun m ↦ if m.1 = isCall then some m.2 else none) = some id ↔
        mark item = some (isCall, id) := by
    intro item id
    rw [Option.bind_eq_some_iff]
    refine ⟨fun ⟨m, hm, hid⟩ ↦ ?_, fun h ↦ ⟨_, h, if_pos rfl⟩⟩
    obtain ⟨hcall, hid⟩ := Option.ite_none_right_eq_some.mp hid
    rw [hm, ← hcall, ← Option.some_inj.mp hid]
  rw [idsOf, List.filterMap_filterMap, List.Nodup, List.pairwise_filterMap,
    List.pairwise_iff_getElem]
  simp only [hid]
  constructor
  · intro h i j id hi hj
    by_contra hne
    rcases Nat.lt_or_gt_of_ne hne with hlt | hlt
    · exact h i j hi.lt_length hj.lt_length hlt id ((markAt_of_lt hi.lt_length).mp hi) id
        ((markAt_of_lt hj.lt_length).mp hj) rfl
    · exact h j i hj.lt_length hi.lt_length hlt id ((markAt_of_lt hj.lt_length).mp hj) id
        ((markAt_of_lt hi.lt_length).mp hi) rfl
  · rintro h i j hi hj hlt id hmark id' hmark' rfl
    exact hlt.ne (h i j id ((markAt_of_lt hi).mpr hmark) ((markAt_of_lt hj).mpr hmark'))

/-- Every result comes after its call, or after one that was seen before. -/
theorem pairingFrom_iff {seen : List String} : pairingFrom seen items = true ↔
    ∀ j id, MarkAt items j false id → id ∈ seen ∨ ∃ i < j, MarkAt items i true id := by
  induction items generalizing seen with
  | nil => exact iff_of_true rfl fun j id h ↦ absurd h.lt_length (Nat.not_lt_zero j)
  | cons item items ih =>
    have hlater : ∀ {seen' : List String},
        (∀ id, id ∈ seen' ↔ id ∈ seen ∨ mark item = some (true, id)) →
        ((∀ j id, MarkAt items j false id → id ∈ seen' ∨ ∃ i < j, MarkAt items i true id) ↔
          ∀ j id, MarkAt (item :: items) (j + 1) false id →
            id ∈ seen ∨ ∃ i < j + 1, MarkAt (item :: items) i true id) := by
      intro seen' hseen
      refine forall_congr' fun j ↦ forall_congr' fun id ↦ imp_congr Iff.rfl ?_
      rw [hseen, or_assoc]
      refine or_congr_right ⟨?_, ?_⟩
      · rintro (h | ⟨i, hi, h⟩)
        · exact ⟨0, Nat.succ_pos j, h⟩
        · exact ⟨i + 1, Nat.succ_lt_succ hi, h⟩
      · rintro ⟨i, hi, h⟩
        cases i with
        | zero => exact .inl h
        | succ i => exact .inr ⟨i, Nat.lt_of_succ_lt_succ hi, h⟩
    rw [← Nat.and_forall_add_one]
    cases item with
    | message role text =>
      rw [pairingFrom, ih, hlater fun id ↦ (or_iff_left (by rintro ⟨⟩)).symm]
      exact (and_iff_right fun id h ↦ absurd h (by rintro ⟨⟩)).symm
    | functionCall callId name argumentsJson =>
      rw [pairingFrom, ih, hlater fun id ↦ ?_]
      · exact (and_iff_right fun id h ↦ absurd h (by rintro ⟨⟩)).symm
      · rw [List.mem_cons, mark, Option.some_inj, Prod.mk.injEq, or_comm, eq_comm (a := id)]
        exact or_congr_right (and_iff_right rfl).symm
    | functionOutput callId name output =>
      rw [pairingFrom, Bool.and_eq_true, ih, hlater fun id ↦ (or_iff_left (by rintro ⟨⟩)).symm,
        List.contains_iff_mem]
      refine and_congr_left fun _ ↦ ⟨fun h id hmark ↦ .inl ?_, fun h ↦ ?_⟩
      · cases hmark
        exact h
      · exact (h callId rfl).resolve_right fun ⟨i, hi, _⟩ ↦ Nat.not_lt_zero i hi

/-- Calls and results come in pairs, and there is a result of every call. -/
theorem answered_iff_wellPaired : Answered items ↔
    WellPaired items ∧ ∀ id ∈ callIds items, id ∈ outputIds items := by
  constructor
  · intro h
    refine ⟨⟨pairingFrom_iff.mpr fun j id hj ↦ .inr (h.owes.result j id hj), fun isCall ↦
      nodup_idsOf_iff.mpr (h.owes.once isCall)⟩, fun id hid ↦ ?_⟩
    obtain ⟨i, hi⟩ := mem_idsOf_iff_markAt.mp hid
    obtain ⟨j, ⟨-, hj⟩, -⟩ := h.call i id hi
    exact mem_idsOf_of_markAt hj
  · rintro ⟨hpaired, hcalls⟩
    refine Owes.answered
      { once := fun isCall ↦ nodup_idsOf_iff.mp (hpaired.nodup isCall)
        result := fun j id hj ↦
          (pairingFrom_iff.mp hpaired.intact j id hj).resolve_left List.not_mem_nil
        call := fun i id hi ↦
          .inr (mem_idsOf_iff_markAt.mp (hcalls id (mem_idsOf_of_markAt hi)))
        owed := fun _ hid ↦ absurd hid List.not_mem_nil
        nodup := List.nodup_nil }

/-- What has the same marks is answered as well. -/
theorem Answered.of_marks (h : Answered items)
    (hmarks : more.filterMap mark = items.filterMap mark) : Answered more := by
  rw [answered_iff_wellPaired] at h ⊢
  refine ⟨h.1.of_marks hmarks, fun id hid ↦ ?_⟩
  rw [callIds, idsOf, hmarks] at hid
  rw [outputIds, idsOf, hmarks]
  exact h.2 id hid

/-- The end of an answered conversation is answered if it has the call of each of its results. -/
theorem Answered.drop (h : Answered items) {n : ℕ} (hn : isPairingIntact (items.drop n) = true) :
    Answered (items.drop n) := by
  rw [answered_iff_wellPaired] at h ⊢
  obtain ⟨hpaired, hcalls⟩ := h
  have hsplit : ∀ isCall, idsOf isCall items =
      idsOf isCall (items.take n) ++ idsOf isCall (items.drop n) := fun isCall ↦ by
    rw [← idsOf_append, List.take_append_drop]
  refine ⟨⟨hn, fun isCall ↦ ?_⟩, fun id hid ↦ ?_⟩
  · have hnodup := hpaired.nodup isCall
    rw [hsplit] at hnodup
    exact hnodup.of_append_right
  · have hout := hcalls id (by rw [callIds, hsplit]; exact List.mem_append_right _ hid)
    rw [outputIds, hsplit] at hout
    refine (List.mem_append.mp hout).resolve_left fun hold ↦ ?_
    exact hpaired.disjoint (hpaired.call_of_output hold) hid

/-- **A preparation that cuts no pair** leaves an answered conversation answered. -/
theorem Answered.prepared {σ : Type} {options : ContextManagerOptions σ} {prep : ContextPreparation}
    (h : Answered items) (hprep : Prepared options items prep)
    (hcut : prep.compacted = true → isPairingIntact (items.rtake keepRecent) = true) :
    Answered prep.items := by
  cases hprep with
  | reduced => exact h.of_marks (filterMap_mark_reducedItems items)
  | compacted draft trigger hlong hdraft =>
    have htail : (reducedItems options items).drop
        ((reducedItems options items).length - keepRecent) = items.rtake keepRecent := rtake_reducedItems items
    rw [htail]
    exact (h.drop (hcut rfl)).of_marks rfl

end QwenHarness.Context
