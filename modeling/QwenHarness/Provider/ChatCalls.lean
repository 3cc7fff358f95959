import Mathlib.Algebra.Order.Ring.Rat
import QwenHarness.Provider.ChatTransport

/-!
# The calls of a chat stream

However the arguments of the calls are split into fragments, and however the fragments of different
calls are interleaved, a call is made of the fragments of its index alone, in their order. So what
the stream has put together where it finishes are the calls themselves, and it yields them in the
order of their indexes, up to the first whose arguments are no JSON object (`streamChat_calls`).
-/

namespace QwenHarness.Provider

open Codec Effect

/-! ## Calls and their fragments -/

/-- A call of a tool as the model makes it. -/
structure StreamedCall where
  index : ℚ
  callId : String
  toolName : String
  argumentsJson : String
deriving DecidableEq, Repr

/-- What a later fragment has of an id or a name: nothing, an empty one, or the same again. -/
def LeavesAsIs (old : String) (new : Option String) : Prop :=
  new = none ∨ new = some "" ∨ new = some old

/-- The fragments of a call. The first one has its id and its name, and together they have its
arguments. -/
structure IsSplit (call : StreamedCall) (fragments : List Fragment) : Prop where
  named : ∃ first rest, fragments = first :: rest ∧
    first.id = some call.callId ∧ first.name = some call.toolName ∧
    ∀ fragment ∈ rest,
      LeavesAsIs call.callId fragment.id ∧ LeavesAsIs call.toolName fragment.name
  whole : (fragments.map Fragment.part).foldl (· ++ ·) "" = call.argumentsJson

/-- The fragments of several calls, in any order that keeps the order of each call's own. -/
structure Interleaves (calls : List StreamedCall) (fragments : List Fragment) : Prop where
  distinct : (calls.map StreamedCall.index).Nodup
  known : ∀ fragment ∈ fragments, fragment.index ∈ calls.map StreamedCall.index
  split : ∀ call ∈ calls,
    IsSplit call (fragments.filter fun fragment ↦ decide (fragment.index = call.index))

/-- A JSON object, or blank. -/
def IsArguments (json : Text → Except RawError Value) (argumentsJson : String) : Prop :=
  isBlank argumentsJson = true ∨ ∃ arguments, json argumentsJson.toList = .ok (.obj arguments)

/-- The call as it is yielded. -/
def StreamedCall.normalized (json : Text → Except RawError Value) (call : StreamedCall) :
    NormalizedToolCall where
  itemId := call.callId
  callId := call.callId
  toolName := call.toolName
  argumentsJson := call.argumentsJson
  arguments := (parseToolArguments json call.argumentsJson).getD []

def completedCall : ProviderStreamEvent → Option NormalizedToolCall
  | .toolCallComplete call => some call
  | _ => none

/-- The calls that have been yielded. -/
def completed (s : Streaming) : List NormalizedToolCall := s.yielded.filterMap completedCall

variable {json : Text → Except RawError Value} {calls : List StreamedCall}
  {fragments : List Fragment} {call : StreamedCall} {s : Streaming}

/-- `JSON.parse` reads the empty object. -/
def ReadsEmptyObject (json : Text → Except RawError Value) : Prop :=
  json ['\x7b', '\x7d'] = .ok (.obj [])

theorem isSome_parseToolArguments (hempty : ReadsEmptyObject json) (argumentsJson : String) :
    (parseToolArguments json argumentsJson).isSome = true ↔ IsArguments json argumentsJson := by
  rw [parseToolArguments, IsArguments]
  cases isBlank argumentsJson with
  | true =>
    rw [if_pos rfl, hempty]
    exact iff_of_true rfl (.inl rfl)
  | false =>
    rw [if_neg Bool.false_ne_true, or_iff_right Bool.false_ne_true]
    constructor
    · intro h
      split at h
      · next arguments hread => exact ⟨arguments, hread⟩
      · exact absurd h Bool.false_ne_true
    · rintro ⟨arguments, hread⟩
      rw [hread]
      rfl

/-! ## What the fragments make -/

/-- The calls that fragments are put together to. -/
def assemble (fragments : List Fragment) : PendingToolCalls :=
  Assoc.fill Fragment.index joinFragment fragments

/-- What is put together of a call so far. -/
structure Shows (pending : PendingToolCall) (call : StreamedCall) (argumentsJson : String) :
    Prop where
  callId : pending.callId = call.callId
  toolName : pending.toolName = call.toolName
  argumentsJson : pending.argumentsJson = argumentsJson

theorem orKeep_of_leavesAsIs {old : String} {new : Option String} (h : LeavesAsIs old new) :
    orKeep new old = old := by
  rcases h with rfl | rfl | rfl
  · rfl
  · rfl
  · rw [orKeep]
    split <;> rfl

theorem orKeep_empty (new : String) : orKeep (some new) "" = new := by
  rw [orKeep]
  split
  · next h => exact h.symm
  · rfl

/-- That a call has begun changes nothing that is shown of it. -/
theorem shows_joinFragment {fragment : Fragment} {pending : Option PendingToolCall}
    {argumentsJson : String} (h : Shows ((pending.getD {}).take fragment) call argumentsJson) :
    Shows (joinFragment fragment pending) call argumentsJson := by
  rw [joinFragment]
  split
  · exact ⟨h.callId, h.toolName, h.argumentsJson⟩
  · exact h

theorem Shows.join {fragment : Fragment} {pending : PendingToolCall} {argumentsJson : String}
    (h : Shows pending call argumentsJson) (hid : LeavesAsIs call.callId fragment.id)
    (hname : LeavesAsIs call.toolName fragment.name) :
    Shows (joinFragment fragment (some pending)) call (argumentsJson ++ fragment.part) := by
  refine shows_joinFragment ⟨?_, ?_, ?_⟩
  · change orKeep fragment.id pending.callId = call.callId
    rw [h.callId, orKeep_of_leavesAsIs hid]
  · change orKeep fragment.name pending.toolName = call.toolName
    rw [h.toolName, orKeep_of_leavesAsIs hname]
  · change pending.argumentsJson ++ fragment.part = _
    rw [h.argumentsJson]

theorem Shows.joinAll {rest : List Fragment} {pending : PendingToolCall} {argumentsJson : String}
    (h : Shows pending call argumentsJson)
    (hrest : ∀ fragment ∈ rest,
      LeavesAsIs call.callId fragment.id ∧ LeavesAsIs call.toolName fragment.name) :
    ∃ pending', rest.foldl (fun o fragment ↦ some (joinFragment fragment o)) (some pending) =
        some pending' ∧
      Shows pending' call ((rest.map Fragment.part).foldl (· ++ ·) argumentsJson) := by
  induction rest generalizing pending argumentsJson with
  | nil => exact ⟨pending, rfl, h⟩
  | cons fragment rest ih =>
    rw [List.forall_mem_cons] at hrest
    exact ih (h.join hrest.1.1 hrest.1.2) hrest.2

/-- **A call is put together of its own fragments**, wherever the others stand. -/
theorem Interleaves.lookup (h : Interleaves calls fragments) (hcall : call ∈ calls) :
    ∃ pending, (assemble fragments).lookup call.index = some pending ∧
      Shows pending call call.argumentsJson := by
  obtain ⟨first, rest, heq, hid, hname, hrest⟩ := (h.split call hcall).named
  have hwhole := (h.split call hcall).whole
  rw [assemble, Assoc.lookup_fill, heq]
  rw [heq, List.map_cons, List.foldl_cons] at hwhole
  have hfirst : Shows (joinFragment first none) call ("" ++ first.part) := by
    refine shows_joinFragment ⟨?_, ?_, rfl⟩
    · change orKeep first.id "" = call.callId
      rw [hid, orKeep_empty]
    · change orKeep first.name "" = call.toolName
      rw [hname, orKeep_empty]
  obtain ⟨pending, hfold, hshows⟩ := hfirst.joinAll hrest
  rw [hwhole] at hshows
  exact ⟨pending, hfold, hshows⟩

theorem mem_map_fst_assemble (fragments : List Fragment) (index : ℚ) :
    index ∈ (assemble fragments).map Prod.fst ↔ index ∈ fragments.map Fragment.index := by
  induction fragments using List.reverseRecOn with
  | nil => rfl
  | append_singleton fragments fragment ih =>
    rw [assemble, Assoc.fill_concat, Assoc.map_fst_alter, List.map_append, List.mem_append, ← ih,
      List.map_singleton, List.mem_singleton]
    split
    · next hmem => exact (or_iff_left_of_imp fun heq ↦ by rw [heq]; exact hmem).symm
    · rw [List.mem_append, List.mem_singleton]
      rfl

/-! ## The order of the calls -/

/-- The calls, from the least index on. -/
def inOrder (calls : List StreamedCall) : List StreamedCall :=
  calls.mergeSort fun a b ↦ decide (a.index ≤ b.index)

theorem perm_inOrder (calls : List StreamedCall) : (inOrder calls).Perm calls :=
  List.mergeSort_perm calls _

theorem pairwise_le_inOrder (calls : List StreamedCall) :
    (inOrder calls).Pairwise fun a b ↦ a.index ≤ b.index := by
  refine (List.pairwise_mergeSort (fun a b c hab hbc ↦ ?_) (fun a b ↦ ?_) calls).imp
    fun h ↦ of_decide_eq_true h
  · exact decide_eq_true ((of_decide_eq_true hab).trans (of_decide_eq_true hbc))
  · rw [Bool.or_eq_true, decide_eq_true_iff, decide_eq_true_iff]
    exact le_total a.index b.index

theorem pairwise_inOrder (h : (calls.map StreamedCall.index).Nodup) :
    (inOrder calls).Pairwise fun a b ↦ a.index < b.index := by
  have hnodup : ((inOrder calls).map StreamedCall.index).Nodup :=
    ((perm_inOrder calls).map _).nodup_iff.mpr h
  have hne : (inOrder calls).Pairwise fun a b ↦ a.index ≠ b.index := List.pairwise_map.mp hnodup
  exact (pairwise_le_inOrder calls).imp₂ (fun _ _ hle hne ↦ lt_of_le_of_ne hle hne) hne

theorem pairwise_sortedIndexes (pending : PendingToolCalls) :
    (sortedIndexes pending).Pairwise (· ≤ ·) := by
  refine (List.pairwise_mergeSort (fun i j k hij hjk ↦ ?_) (fun i j ↦ ?_) _).imp
    fun h ↦ of_decide_eq_true h
  · exact decide_eq_true ((of_decide_eq_true hij).trans (of_decide_eq_true hjk))
  · rw [Bool.or_eq_true, decide_eq_true_iff, decide_eq_true_iff]
    exact le_total i j

/-- Each call has a fragment, and each fragment is of a call. -/
theorem Interleaves.mem_indexes (h : Interleaves calls fragments) (index : ℚ) :
    index ∈ fragments.map Fragment.index ↔ index ∈ calls.map StreamedCall.index := by
  constructor
  · intro hmem
    obtain ⟨fragment, hfragment, rfl⟩ := List.mem_map.mp hmem
    exact h.known fragment hfragment
  · intro hmem
    obtain ⟨call, hcall, rfl⟩ := List.mem_map.mp hmem
    obtain ⟨first, rest, heq, -⟩ := (h.split call hcall).named
    have hfirst : first ∈ fragments.filter fun fragment ↦ decide (fragment.index = call.index) := by
      rw [heq]
      exact List.mem_cons_self
    obtain ⟨hfirst, hindex⟩ := List.mem_filter.mp hfirst
    exact List.mem_map.mpr ⟨first, hfirst, of_decide_eq_true hindex⟩

theorem Interleaves.sortedIndexes (h : Interleaves calls fragments) :
    sortedIndexes (assemble fragments) = (inOrder calls).map StreamedCall.index := by
  have hkeys : ((assemble fragments).map Prod.fst).Perm (calls.map StreamedCall.index) := by
    refine (List.perm_ext_iff_of_nodup (Assoc.nodup_fill fragments) h.distinct).mpr fun index ↦ ?_
    exact (mem_map_fst_assemble fragments index).trans (h.mem_indexes index)
  have hperm : (Provider.sortedIndexes (assemble fragments)).Perm
      ((inOrder calls).map StreamedCall.index) :=
    (List.mergeSort_perm _ _).trans (hkeys.trans ((perm_inOrder calls).map _).symm)
  refine hperm.eq_of_pairwise (fun i j _ _ hij hji ↦ le_antisymm hij hji)
    (pairwise_sortedIndexes _) ?_
  exact List.pairwise_map.mpr (pairwise_le_inOrder calls)

/-! ## How the calls are yielded -/

/-- Every call is there, as it was put together. -/
def Holds (pending : PendingToolCalls) (calls : List StreamedCall) : Prop :=
  ∀ call ∈ calls, ∃ p, pending.lookup call.index = some p ∧ Shows p call call.argumentsJson

theorem completeCall_eq {pending : PendingToolCalls} {p : PendingToolCall} {n : ℕ}
    (hlookup : pending.lookup call.index = some p) (hshows : Shows p call call.argumentsJson)
    (hempty : ReadsEmptyObject json) (harguments : IsArguments json call.argumentsJson) :
    completeCall json pending n call.index s = .ok (n + 1)
      { s with yielded := s.yielded ++ [.toolCallComplete (call.normalized json)] } := by
  obtain ⟨arguments, hparse⟩ :=
    Option.isSome_iff_exists.mp ((isSome_parseToolArguments hempty _).mpr harguments)
  simp only [completeCall, hlookup, hshows.callId, hshows.toolName, hshows.argumentsJson, hparse,
    StreamedCall.normalized, Option.getD_some]
  rfl

theorem completeCall_malformed {pending : PendingToolCalls} {p : PendingToolCall} {n : ℕ}
    (hlookup : pending.lookup call.index = some p) (hshows : Shows p call call.argumentsJson)
    (hempty : ReadsEmptyObject json) (harguments : ¬ IsArguments json call.argumentsJson) :
    completeCall json pending n call.index s = .error (.harness (malformedToolArgumentsError
      call.toolName call.callId call.argumentsJson s.visibleOutputEmitted)) s := by
  have hparse : parseToolArguments json call.argumentsJson = none :=
    Option.not_isSome_iff_eq_none.mp (mt (isSome_parseToolArguments hempty _).mp harguments)
  simp only [completeCall, hlookup, hshows.callId, hshows.toolName, hshows.argumentsJson, hparse]
  rfl

/-- All calls are yielded, if all have arguments. -/
theorem completeAll {pending : PendingToolCalls} (hholds : Holds pending calls)
    (hempty : ReadsEmptyObject json)
    (harguments : ∀ call ∈ calls, IsArguments json call.argumentsJson)
    (n : ℕ) : ∃ n', (calls.map StreamedCall.index).foldlM (completeCall json pending) n s = .ok n'
      { s with yielded := s.yielded ++
          calls.map fun call ↦ .toolCallComplete (call.normalized json) } := by
  induction calls generalizing n s with
  | nil =>
    have hnil : s.yielded ++ [] = s.yielded := List.append_nil _
    refine ⟨n, ?_⟩
    rw [List.map_nil, List.map_nil, hnil]
    rfl
  | cons call calls ih =>
    obtain ⟨p, hlookup, hshows⟩ := hholds call List.mem_cons_self
    rw [List.forall_mem_cons] at harguments
    rw [List.map_cons, List.foldlM_cons, bind_apply,
      completeCall_eq hlookup hshows hempty harguments.1]
    obtain ⟨n', hrest⟩ := ih (fun c hc ↦ hholds c (List.mem_cons_of_mem _ hc)) harguments.2 (n + 1)
    refine ⟨n', hrest.trans ?_⟩
    rw [List.map_cons, List.append_assoc, List.singleton_append]

/-- The first call without arguments is an error, after the calls before it. -/
theorem completeAll_malformed {pending : PendingToolCalls} {good more : List StreamedCall}
    {bad : StreamedCall} (hholds : Holds pending (good ++ bad :: more))
    (hempty : ReadsEmptyObject json) (hgood : ∀ call ∈ good, IsArguments json call.argumentsJson)
    (hbad : ¬ IsArguments json bad.argumentsJson) (n : ℕ) :
    ((good ++ bad :: more).map StreamedCall.index).foldlM (completeCall json pending) n s =
      .error (.harness (malformedToolArgumentsError bad.toolName bad.callId bad.argumentsJson
        s.visibleOutputEmitted))
      { s with yielded := s.yielded ++
          good.map fun call ↦ .toolCallComplete (call.normalized json) } := by
  obtain ⟨n', hall⟩ := completeAll (s := s) (fun c hc ↦ hholds c (List.mem_append_left _ hc))
    hempty hgood n
  obtain ⟨p, hlookup, hshows⟩ := hholds bad (List.mem_append_right _ List.mem_cons_self)
  rw [List.map_append, List.foldlM_append, bind_apply, hall]
  change (completeCall json pending n' bad.index >>= fun n ↦
    (more.map StreamedCall.index).foldlM (completeCall json pending) n) _ = _
  rw [bind_apply, completeCall_malformed hlookup hshows hempty hbad]

/-! ## Programs that yield no call -/

/-- A program that does not throw, yields no complete call, and returns what is said of it. -/
def Quiet {α : Type} (m : Transport α) (q : α → Prop) : Prop :=
  ∀ cs, Triple (fun s ↦ completed s = cs) m (fun a s ↦ q a ∧ completed s = cs) fun _ _ ↦ False

theorem completed_append (s : Streaming) (events : List ProviderStreamEvent) (id : Option String) :
    completed { s with requestId := id, yielded := s.yielded ++ events } =
      completed s ++ events.filterMap completedCall := List.filterMap_append

section Quiet

variable {α β : Type} {m : Transport α} {q : α → Prop} {event : ProviderStreamEvent}

theorem quiet_pure {a : α} (h : q a) : Quiet (pure a) q := fun _ _ hs ↦ ⟨h, hs⟩

theorem Quiet.bind {f : α → Transport β} {q' : β → Prop} (hm : Quiet m q)
    (hf : ∀ a, q a → Quiet (f a) q') : Quiet (m >>= f) q' :=
  fun cs ↦ Triple.bind (hm cs) fun a ↦ .assuming fun ha ↦ hf a ha cs

/-- What is quiet can stand before anything. -/
theorem Quiet.andThen {f : α → Transport β} {cs : List NormalizedToolCall}
    {post : β → Streaming → Prop} {thrown : Failure → Streaming → Prop} (hm : Quiet m q)
    (hf : ∀ a, q a → Triple (fun s ↦ completed s = cs) (f a) post thrown) :
    Triple (fun s ↦ completed s = cs) (m >>= f) post thrown := by
  have hquiet : Triple (fun s ↦ completed s = cs) m (fun a s ↦ q a ∧ completed s = cs) thrown :=
    (hm cs).conseq (fun _ h ↦ h) (fun _ _ h ↦ h) fun _ _ h ↦ h.elim
  exact hquiet.bind fun a ↦ .assuming (hf a)

theorem quiet_yieldEvent (h : completedCall event = none) :
    Quiet (yieldEvent event) fun _ ↦ True := by
  refine fun cs s hs ↦ ⟨trivial, ?_⟩
  rw [completed_append s [event] s.requestId, List.filterMap_cons_none h, List.filterMap_nil,
    List.append_nil]
  exact hs

theorem quiet_when {c : Prop} [Decidable c] {m : Transport Unit} (hm : Quiet m fun _ ↦ True) :
    Quiet (when c m) fun _ ↦ True :=
  fun cs ↦ Triple.when (fun _ ↦ hm cs) fun _ _ hs ↦ ⟨trivial, hs⟩

theorem quiet_nameRequest (id : Option String) : Quiet (nameRequest id) fun _ ↦ True := by
  refine fun cs s hs ↦ ⟨trivial, ?_⟩
  unfold Streaming.named
  split
  · split
    · exact hs
    · rw [completed_append]
      exact (List.append_nil _).trans hs
  · exact hs

theorem quiet_takeContent (chunkId content : Option String) :
    Quiet (takeContent chunkId content) fun _ ↦ True := by
  unfold takeContent
  split
  · exact quiet_pure trivial
  · split
    · exact quiet_pure trivial
    · exact Quiet.bind (q := fun _ ↦ True) (fun _ _ hs ↦ ⟨trivial, hs⟩)
        fun _ _ ↦ quiet_yieldEvent rfl

theorem quiet_takeReasoning (loop : ChatLoop) (reasoning : Option String) :
    Quiet (takeReasoning loop reasoning) fun loop' ↦
      loop'.pending = loop.pending ∧ loop'.finishReason = loop.finishReason := by
  rw [takeReasoning]
  split
  · exact quiet_pure ⟨rfl, rfl⟩
  · exact (quiet_yieldEvent rfl).bind fun _ _ ↦ quiet_pure ⟨rfl, rfl⟩

end Quiet

/-- Put fragments to the calls that are under construction. -/
def joinAll (pending : PendingToolCalls) (fragments : List Fragment) : PendingToolCalls :=
  fragments.foldl
    (fun pending fragment ↦ Assoc.alter fragment.index (joinFragment fragment) pending) pending

theorem assemble_append (fragments more : List Fragment) :
    assemble (fragments ++ more) = joinAll (assemble fragments) more := List.foldl_append

theorem quiet_takeFragments (fragments : List Fragment) (pending : PendingToolCalls) :
    Quiet (fragments.foldlM takeFragment pending) (· = joinAll pending fragments) := by
  induction fragments generalizing pending with
  | nil => exact quiet_pure rfl
  | cons fragment fragments ih =>
    rw [List.foldlM_cons]
    have hfragment : Quiet (takeFragment pending fragment)
        (· = Assoc.alter fragment.index (joinFragment fragment) pending) :=
      (quiet_when (quiet_yieldEvent rfl)).bind fun _ _ ↦ quiet_pure rfl
    refine hfragment.bind ?_
    rintro _ rfl
    exact ih _

/-! ## The loop -/

/-- The loop has not come to the choice with which the model finishes, and has put together what
there was so far; or it has passed that choice, and has yielded every call. -/
def Stage (json : Text → Except RawError Value) (calls : List StreamedCall)
    (opening : List ChatChoice) (last : ChatChoice) (done : List ChatChoice) (loop : ChatLoop)
    (s : Streaming) : Prop :=
  (done <+: opening ∧ loop.pending = assemble (done.flatMap ChatChoice.fragments) ∧
      completed s = []) ∨
    ((opening ++ [last]) <+: done ∧ loop.pending = [] ∧ loop.finishReason.isSome = true ∧
      (∀ call ∈ calls, IsArguments json call.argumentsJson) ∧
      completed s = (inOrder calls).map fun call ↦ call.normalized json)

/-- The first call without arguments is refused, and the calls before it have been yielded. -/
def Refused (json : Text → Except RawError Value) (calls : List StreamedCall) (failure : Failure)
    (s : Streaming) : Prop :=
  ∃ good bad more, inOrder calls = good ++ bad :: more ∧
    (∀ call ∈ good, IsArguments json call.argumentsJson) ∧ ¬ IsArguments json bad.argumentsJson ∧
    completed s = good.map (fun call ↦ call.normalized json) ∧
    failure = .harness (malformedToolArgumentsError bad.toolName bad.callId bad.argumentsJson
      s.visibleOutputEmitted)

variable {wire : ChatWire} {chunkId : Option String} {loop : ChatLoop} {choice last : ChatChoice}
  {opening rest done : List ChatChoice}

theorem quiet_takeChoice (hfinish : choice.finish = none) :
    Quiet (takeChoice wire chunkId loop choice) fun loop' ↦
      loop'.pending = joinAll loop.pending choice.fragments ∧
        loop'.finishReason = loop.finishReason := by
  rw [takeChoice]
  refine (quiet_takeContent _ _).bind fun _ _ ↦ ?_
  refine (quiet_takeReasoning _ _).bind fun loop' hloop ↦ ?_
  refine (quiet_takeFragments _ _).bind fun pending hpending ↦ ?_
  rw [hfinish]
  exact quiet_pure ⟨by rw [hpending, hloop.1], hloop.2⟩

theorem completed_calls (s : Streaming) (calls : List StreamedCall) :
    completed { s with yielded := s.yielded ++
        (calls.map fun call ↦ .toolCallComplete (call.normalized json)) } =
      completed s ++ calls.map fun call ↦ call.normalized json := by
  rw [completed_append s _ s.requestId, List.filterMap_map, ← List.filterMap_eq_map]
  rfl

/-- What does not hold of all entries fails at a first one. -/
theorem exists_first_not {α : Type} {P : α → Prop} {as : List α} (h : ¬ ∀ a ∈ as, P a) :
    ∃ before a after, as = before ++ a :: after ∧ (∀ b ∈ before, P b) ∧ ¬ P a := by
  induction as with
  | nil => exact absurd (List.forall_mem_nil _) h
  | cons a as ih =>
    by_cases ha : P a
    · rw [List.forall_mem_cons, and_iff_right ha] at h
      obtain ⟨before, b, after, rfl, hbefore, hb⟩ := ih h
      exact ⟨a :: before, b, after, rfl, List.forall_mem_cons.mpr ⟨ha, hbefore⟩, hb⟩
    · exact ⟨[], a, as, rfl, List.forall_mem_nil _, ha⟩

/-- Where the model finishes, the calls are yielded, or the first without arguments is refused. -/
theorem completeCalls_spec (hinterleaves : Interleaves calls fragments)
    (hempty : ReadsEmptyObject json) {raw : String} (hpending : loop.pending = assemble fragments) :
    Triple (fun s ↦ completed s = []) (completeCalls json loop raw)
      (fun loop' s ↦ loop'.pending = [] ∧ loop'.finishReason.isSome = true ∧
        (∀ call ∈ calls, IsArguments json call.argumentsJson) ∧
        completed s = (inOrder calls).map fun call ↦ call.normalized json)
      (Refused json calls) := by
  have hholds : Holds loop.pending (inOrder calls) := by
    intro call hcall
    rw [hpending]
    exact hinterleaves.lookup ((perm_inOrder calls).mem_iff.mp hcall)
  intro s hs
  rw [completeCalls, hpending, hinterleaves.sortedIndexes, ← hpending, bind_apply]
  by_cases hall : ∀ call ∈ inOrder calls, IsArguments json call.argumentsJson
  · obtain ⟨n, hrun⟩ := completeAll (s := s) hholds hempty hall loop.completedCalls
    rw [hrun]
    refine ⟨rfl, rfl, fun call hcall ↦ hall call ((perm_inOrder calls).mem_iff.mpr hcall), ?_⟩
    rw [completed_calls, hs, List.nil_append]
  · obtain ⟨good, bad, more, hsplit, hgood, hbad⟩ := exists_first_not hall
    rw [hsplit] at hholds ⊢
    rw [completeAll_malformed hholds hempty hgood hbad]
    refine ⟨good, bad, more, hsplit, hgood, hbad, ?_, rfl⟩
    rw [completed_calls, hs, List.nil_append]

/-- A choice without fragments makes no call, also where the model finishes once more. -/
theorem takeChoice_spec_of_nil (hpending : loop.pending = []) (hfragments : choice.fragments = [])
    (cs : List NormalizedToolCall) :
    Triple (fun s ↦ completed s = cs) (takeChoice wire chunkId loop choice)
      (fun loop' s ↦ loop'.pending = [] ∧
        (loop.finishReason.isSome = true → loop'.finishReason.isSome = true) ∧ completed s = cs)
      fun _ _ ↦ False := by
  cases hfinish : choice.finish with
  | none =>
    refine (quiet_takeChoice hfinish cs).conseq (fun _ hs ↦ hs) (fun loop' s h ↦ ?_) fun _ _ h ↦ h
    obtain ⟨⟨hloop, hreason⟩, hs⟩ := h
    rw [hpending, hfragments] at hloop
    exact ⟨hloop, fun hsome ↦ by rw [hreason]; exact hsome, hs⟩
  | some raw =>
    have hquiet : Quiet (takeChoice wire chunkId loop choice) fun loop' ↦
        loop'.pending = [] ∧ loop'.finishReason.isSome = true := by
      rw [takeChoice]
      refine (quiet_takeContent _ _).bind fun _ _ ↦ ?_
      refine (quiet_takeReasoning _ _).bind fun loop' hloop ↦ ?_
      refine (quiet_takeFragments _ _).bind fun pending hjoined ↦ ?_
      rw [hfragments, hloop.1, hpending] at hjoined
      rw [hfinish]
      change Quiet (completeCalls wire.json { loop' with pending } raw) _
      have hnil : sortedIndexes (joinAll [] []) = [] := List.mergeSort_nil
      rw [hjoined, completeCalls, hnil]
      exact Quiet.bind (q := fun _ ↦ True) (quiet_pure trivial) fun _ _ ↦ quiet_pure ⟨rfl, rfl⟩
    refine (hquiet cs).conseq (fun _ hs ↦ hs) (fun loop' s h ↦ ?_) fun _ _ h ↦ h
    exact ⟨h.1.1, fun _ ↦ h.1.2, h.2⟩

section Loop

variable (hinterleaves : Interleaves calls ((opening ++ [last]).flatMap ChatChoice.fragments))
  (hempty : ReadsEmptyObject wire.json) (hopening : ∀ choice ∈ opening, choice.finish = none)
  (hlast : last.finish ≠ none) (hrest : ∀ choice ∈ rest, choice.fragments = [])

include hinterleaves hempty hopening hlast hrest

/-- One more choice. -/
theorem stage_takeChoice (hupto : (done ++ [choice]) <+: opening ++ last :: rest) :
    Triple (Stage wire.json calls opening last done loop) (takeChoice wire chunkId loop choice)
      (Stage wire.json calls opening last (done ++ [choice])) (Refused wire.json calls) := by
  obtain ⟨after, hafter⟩ := hupto
  rw [List.append_assoc, List.singleton_append] at hafter
  refine Triple.or ?_ ?_
  · refine Triple.assuming fun hdone ↦ Triple.assuming fun hpending ↦ ?_
    obtain ⟨more, rfl⟩ := hdone
    rw [List.append_assoc] at hafter
    have htail := List.append_cancel_left hafter
    rcases more with - | ⟨next, more⟩
    · -- The choice is the one with which the model finishes.
      obtain ⟨rfl, rfl⟩ := List.cons.inj htail
      rw [List.append_nil] at hinterleaves
      obtain ⟨raw, hraw⟩ := Option.ne_none_iff_exists'.mp hlast
      rw [takeChoice]
      refine (quiet_takeContent _ _).andThen fun _ _ ↦ ?_
      refine (quiet_takeReasoning _ _).andThen fun loop' hloop ↦ ?_
      refine (quiet_takeFragments _ _).andThen fun pending hjoined ↦ ?_
      rw [hraw]
      have hassembled :
          pending = assemble ((done ++ [choice]).flatMap ChatChoice.fragments) := by
        rw [hjoined, hloop.1, hpending, ← assemble_append, List.flatMap_append,
          List.flatMap_singleton]
      refine (completeCalls_spec hinterleaves hempty hassembled).conseq (fun _ h ↦ h)
        (fun loop'' s h ↦ .inr ⟨?_, h⟩) fun _ _ h ↦ h
      simp only [List.append_nil, List.prefix_rfl]
    · obtain ⟨rfl, htail⟩ := List.cons.inj htail
      have hmem : choice ∈ done ++ choice :: more := List.mem_append_right _ List.mem_cons_self
      refine (quiet_takeChoice (hopening choice hmem) []).conseq (fun _ h ↦ h)
        (fun loop' s h ↦ .inl ⟨⟨more, ?_⟩, ?_, h.2⟩) fun _ _ h ↦ h.elim
      · rw [List.append_assoc, List.singleton_append]
      · rw [h.1.1, hpending, ← assemble_append, List.flatMap_append, List.flatMap_singleton]
  · refine Triple.assuming fun hdone ↦ Triple.assuming fun hpending ↦ ?_
    refine Triple.assuming fun hreason ↦ Triple.assuming fun harguments ↦ ?_
    obtain ⟨more, rfl⟩ := hdone
    rw [List.append_assoc, List.append_assoc] at hafter
    have htail : more ++ choice :: after = rest :=
      (List.cons.inj (List.append_cancel_left hafter)).2
    have hmem : choice ∈ rest := by
      rw [← htail]
      exact List.mem_append_right _ List.mem_cons_self
    refine (takeChoice_spec_of_nil hpending (hrest choice hmem) _).conseq (fun _ h ↦ h)
      (fun loop' s h ↦ .inr ⟨⟨more ++ [choice], ?_⟩, h.1, h.2.1 hreason, harguments, h.2.2⟩)
      fun _ _ h ↦ h.elim
    rw [List.append_assoc, List.append_assoc, List.append_assoc]

theorem stage_takeChoices (choices : List ChatChoice)
    (hupto : (done ++ choices) <+: opening ++ last :: rest) :
    Triple (Stage wire.json calls opening last done loop)
      (choices.foldlM (takeChoice wire chunkId) loop)
      (Stage wire.json calls opening last (done ++ choices)) (Refused wire.json calls) := by
  induction choices generalizing done loop with
  | nil =>
    rw [List.append_nil]
    exact .pure fun _ h ↦ h
  | cons choice choices ih =>
    have hsplit : done ++ choice :: choices = done ++ [choice] ++ choices := by
      rw [List.append_assoc, List.singleton_append]
    rw [hsplit] at hupto ⊢
    rw [List.foldlM_cons]
    have hone : (done ++ [choice]) <+: opening ++ last :: rest :=
      (List.prefix_append _ _).trans hupto
    exact (stage_takeChoice hinterleaves hempty hopening hlast hrest hone).bind
      fun loop' ↦ ih hupto

theorem stage_takeChunk (chunk : ChatChunk)
    (hupto : (done ++ chunk.choices) <+: opening ++ last :: rest) :
    Triple (Stage wire.json calls opening last done loop) (takeChunk wire loop chunk)
      (Stage wire.json calls opening last (done ++ chunk.choices)) (Refused wire.json calls) := by
  have hname : Triple (Stage wire.json calls opening last done loop) (nameRequest chunk.id)
      (fun _ ↦ Stage wire.json calls opening last done loop) (Refused wire.json calls) := by
    intro s hs
    obtain ⟨-, hsame⟩ := quiet_nameRequest chunk.id (completed s) s rfl
    rw [Stage, ← hsame] at hs
    exact hs
  refine hname.bind fun _ ↦ ?_
  refine (stage_takeChoices hinterleaves hempty hopening hlast hrest chunk.choices
    hupto).conseq (fun s hs ↦ ?_) (fun _ _ h ↦ h) fun _ _ h ↦ h
  unfold ChatLoop.noteUsage
  split <;> exact hs

end Loop

/-- A frame that is not the last one, and the chunk that it carries. -/
def Carries (wire : ChatWire) (frame : SseFrame) (chunk : ChatChunk) : Prop :=
  frame.data ≠ sseDone ∧
    ∃ value, wire.json frame.data = .ok value ∧ wire.chunk value = .ok chunk

/-- A body that streams calls. Its chunks have the fragments of the calls before the model finishes
or where it does, and none after that. What follows the chunks is the last frame, if there is
one. -/
inductive Streams (wire : ChatWire) (calls : List StreamedCall) : Body → Prop
  | intro {frames tail : List SseFrame} {chunks : List ChatChunk} {opening rest : List ChatChoice}
      {last : ChatChoice} {ending : Option RawError}
      (carries : List.Forall₂ (Carries wire) frames chunks)
      (ends : ∀ frame ∈ tail.head?, frame.data = sseDone)
      (choices : chunks.flatMap ChatChunk.choices = opening ++ last :: rest)
      (opens : ∀ choice ∈ opening, choice.finish = none)
      (finishes : last.finish ≠ none)
      (interleaves : Interleaves calls ((opening ++ [last]).flatMap ChatChoice.fragments))
      (nothing : ∀ choice ∈ rest, choice.fragments = []) :
      Streams wire calls ⟨frames ++ tail, ending⟩

theorem takeChatFrame_of_carries {frame : SseFrame} {chunk : ChatChunk}
    (h : Carries wire frame chunk) : takeChatFrame wire loop frame = takeChunk wire loop chunk := by
  obtain ⟨-, value, hjson, hchunk⟩ := h
  rw [takeChatFrame, hjson]
  change (orRaise (wire.chunk value) >>= _) = _
  rw [hchunk]
  rfl

/-- How the reading of the frames ends, if by an error: a call is refused, or the read fails. -/
def Broken (json : Text → Except RawError Value) (calls : List StreamedCall)
    (opening : List ChatChoice) (last : ChatChoice) (done : List ChatChoice) (failure : Failure)
    (s : Streaming) : Prop :=
  Refused json calls failure s ∨
    (∃ error, failure = .raw error) ∧ ∃ loop, Stage json calls opening last done loop s

theorem stage_takeChatFrames {body : Body} {frames tail : List SseFrame} {chunks : List ChatChunk}
    (hinterleaves : Interleaves calls ((opening ++ [last]).flatMap ChatChoice.fragments))
    (hempty : ReadsEmptyObject wire.json) (hopening : ∀ choice ∈ opening, choice.finish = none)
    (hlast : last.finish ≠ none) (hrest : ∀ choice ∈ rest, choice.fragments = [])
    (hcarries : List.Forall₂ (Carries wire) frames chunks)
    (htail : ∀ frame ∈ tail.head?, frame.data = sseDone)
    (hupto : (done ++ chunks.flatMap ChatChunk.choices) <+: opening ++ last :: rest) :
    Triple (Stage wire.json calls opening last done loop)
      (takeChatFrames wire body loop (frames ++ tail))
      (Stage wire.json calls opening last (done ++ chunks.flatMap ChatChunk.choices))
      (Broken wire.json calls opening last (done ++ chunks.flatMap ChatChunk.choices)) := by
  induction hcarries generalizing done loop with
  | nil =>
    rw [List.nil_append, List.flatMap_nil, List.append_nil]
    rcases tail with - | ⟨frame, tail⟩
    · rw [takeChatFrames, Body.finish]
      cases body.ending with
      | none => exact .pure fun _ h ↦ h
      | some error => exact fun s hs ↦ .inr ⟨⟨error, rfl⟩, loop, hs⟩
    · rw [takeChatFrames, if_pos (htail frame rfl)]
      exact .pure fun _ h ↦ h
  | @cons frame chunk frames chunks hcarries _ ih =>
    rw [List.flatMap_cons, ← List.append_assoc] at hupto ⊢
    rw [List.cons_append, takeChatFrames, if_neg hcarries.1, takeChatFrame_of_carries hcarries]
    have hone : (done ++ chunk.choices) <+: opening ++ last :: rest :=
      (List.prefix_append _ _).trans hupto
    refine Triple.bind ?_ fun loop' ↦ ih hupto
    exact (stage_takeChunk hinterleaves hempty hopening hlast hrest chunk hone).conseq
      (fun _ h ↦ h) (fun _ _ h ↦ h) fun _ _ h ↦ .inl h

/-- At the end of the choices, the model has finished. -/
theorem Stage.finished (h : Stage json calls opening last (opening ++ last :: rest) loop s) :
    loop.finishReason.isSome = true ∧ (∀ call ∈ calls, IsArguments json call.argumentsJson) ∧
      completed s = (inOrder calls).map fun call ↦ call.normalized json := by
  rcases h with ⟨hupto, -⟩ | ⟨-, -, h⟩
  · have hlength := hupto.length_le
    rw [List.length_append, List.length_cons] at hlength
    omega
  · exact h

theorem quiet_finishChat (h : loop.finishReason.isSome = true) :
    Quiet (finishChat loop) fun _ ↦ True := by
  obtain ⟨finishReason, hreason⟩ := Option.isSome_iff_exists.mp h
  rw [finishChat, hreason]
  refine (quiet_yieldEvent rfl).bind fun _ _ ↦ ?_
  exact (quiet_when (quiet_yieldEvent rfl)).bind fun _ _ ↦ quiet_yieldEvent rfl

/-- What a stream of calls ends with: all calls, in the order of their indexes, and then perhaps an
error of the read; or the error of the first call without arguments. -/
theorem streamChat_spec {body : Body} (hempty : ReadsEmptyObject wire.json)
    (h : Streams wire calls body) (headerRequestId : Option String) :
    Triple (fun s ↦ completed s = []) (streamChat wire headerRequestId body)
      (fun _ s ↦ (∀ call ∈ calls, IsArguments wire.json call.argumentsJson) ∧
        completed s = (inOrder calls).map fun call ↦ call.normalized wire.json)
      fun failure s ↦ Refused wire.json calls failure s ∨
        (∃ error, failure = .raw error) ∧
        (∀ call ∈ calls, IsArguments wire.json call.argumentsJson) ∧
        completed s = (inOrder calls).map fun call ↦ call.normalized wire.json := by
  cases h with
  | @intro frames tail chunks opening rest last ending carries ends choices opens finishes
      interleaves nothing =>
    have hframes : Triple (Stage wire.json calls opening last [] {})
        (takeChatFrames wire ⟨frames ++ tail, ending⟩ {} (frames ++ tail))
        (Stage wire.json calls opening last ([] ++ chunks.flatMap ChatChunk.choices))
        (Broken wire.json calls opening last ([] ++ chunks.flatMap ChatChunk.choices)) :=
      stage_takeChatFrames interleaves hempty opens finishes nothing carries ends
        (by simp only [List.nil_append, choices, List.prefix_rfl])
    rw [List.nil_append, choices] at hframes
    rw [streamChat]
    refine (quiet_nameRequest _).andThen fun _ _ ↦ ?_
    refine (hframes.conseq (fun s hs ↦ .inl ⟨List.nil_prefix, rfl, hs⟩) (fun _ _ h ↦ h)
      fun failure s h ↦ ?_).bind fun loop s hs ↦ ?_
    · exact h.imp_right fun h ↦ ⟨h.1, h.2.elim fun _ h ↦ h.finished.2⟩
    · obtain ⟨hreason, harguments, hcompleted⟩ := hs.finished
      exact (quiet_finishChat hreason _).conseq (fun _ h ↦ h) (fun _ _ h ↦ ⟨harguments, h.2⟩)
        (fun _ _ h ↦ h.elim) s hcompleted

theorem Refused.exists_not {failure : Failure} (h : Refused json calls failure s) :
    ∃ call ∈ calls, ¬ IsArguments json call.argumentsJson := by
  obtain ⟨good, bad, more, hsplit, -, hbad, -⟩ := h
  refine ⟨bad, (perm_inOrder calls).mem_iff.mp ?_, hbad⟩
  rw [hsplit]
  exact List.mem_append_right _ List.mem_cons_self

/-- **The calls of a chat stream** are yielded where the model finishes: each once, from the least
index on, with its own id and name and the whole of its arguments. The stream throws that arguments
are malformed if and only if those of some call are neither a JSON object nor blank; then it has
yielded the calls before the first such one. -/
theorem streamChat_calls {body : Body} (hempty : ReadsEmptyObject wire.json)
    (h : Streams wire calls body) (headerRequestId : Option String) :
    ((inOrder calls).Perm calls ∧ (inOrder calls).Pairwise fun a b ↦ a.index < b.index) ∧
      ((∀ call ∈ calls, IsArguments wire.json call.argumentsJson) →
        completed (after (streamChat wire headerRequestId body {})) =
          (inOrder calls).map fun call ↦ call.normalized wire.json) ∧
      ((∃ call ∈ calls, ¬ IsArguments wire.json call.argumentsJson) →
        ∃ failure s, streamChat wire headerRequestId body {} = .error failure s ∧
          Refused wire.json calls failure s) ∧
      ((∃ toolName callId argumentsJson s, streamChat wire headerRequestId body {} =
          .error (.harness (malformedToolArgumentsError toolName callId argumentsJson
            s.visibleOutputEmitted)) s) ↔
        ∃ call ∈ calls, ¬ IsArguments wire.json call.argumentsJson) := by
  have hspec := streamChat_spec hempty h headerRequestId {} rfl
  have hdistinct : (calls.map StreamedCall.index).Nodup := by
    obtain ⟨_, _, _, _, _, hinterleaves, _⟩ := h
    exact hinterleaves.distinct
  refine ⟨⟨perm_inOrder calls, pairwise_inOrder hdistinct⟩, ?_⟩
  have hnot : (∀ call ∈ calls, IsArguments wire.json call.argumentsJson) →
      ¬ ∃ call ∈ calls, ¬ IsArguments wire.json call.argumentsJson := by
    rintro hall ⟨call, hcall, hbad⟩
    exact hbad (hall call hcall)
  cases hrun : streamChat wire headerRequestId body {} with
  | ok a s =>
    rw [hrun] at hspec
    refine ⟨fun _ ↦ hspec.2, fun hbad ↦ absurd hbad (hnot hspec.1), iff_of_false ?_ (hnot hspec.1)⟩
    rintro ⟨_, _, _, _, heq⟩
    cases heq
  | error failure s =>
    rw [hrun] at hspec
    rcases hspec with hrefused | ⟨⟨error, rfl⟩, hall, hcompleted⟩
    · have hbad := hrefused.exists_not
      refine ⟨fun hall ↦ absurd hbad (hnot hall), fun _ ↦ ⟨failure, s, rfl, hrefused⟩,
        iff_of_true ?_ hbad⟩
      obtain ⟨good, bad, more, -, -, -, -, rfl⟩ := hrefused
      exact ⟨bad.toolName, bad.callId, bad.argumentsJson, s, rfl⟩
    · refine ⟨fun _ ↦ hcompleted, fun hbad ↦ absurd hbad (hnot hall), iff_of_false ?_ (hnot hall)⟩
      rintro ⟨_, _, _, _, heq⟩
      cases heq

/-! ## Two calls -/

/-- The second call comes first, and the arguments of the first one come in two parts. -/
def twoCalls : List StreamedCall := [⟨0, "a", "read", "\x7b\x7d"⟩, ⟨1, "b", "list", ""⟩]

def twoCallsFragments : List Fragment :=
  [⟨1, some "b", some ⟨some "list", none⟩⟩, ⟨0, some "a", some ⟨some "read", some "\x7b"⟩⟩,
    ⟨0, some "", some ⟨none, some "\x7d"⟩⟩]

def twoCallsChoice : ChatChoice where
  delta := some { toolCalls := some twoCallsFragments }
  finishReason := some "tool_calls"

def objectText (members : List String) : String :=
  "\x7b" ++ String.intercalate "," members ++ "\x7d"

def twoCallsText : String :=
  objectText ["\"choices\":[" ++ objectText
    ["\"delta\":" ++ objectText ["\"tool_calls\":[" ++
      objectText ["\"index\":1", "\"id\":\"b\"", "\"function\":" ++ objectText
        ["\"name\":\"list\""]] ++ "," ++
      objectText ["\"index\":0", "\"id\":\"a\"", "\"function\":" ++ objectText
        ["\"name\":\"read\"", "\"arguments\":\"\x7b\""]] ++ "," ++
      objectText ["\"index\":0", "\"id\":\"\"", "\"function\":" ++ objectText
        ["\"arguments\":\"\x7d\""]] ++ "]"],
      "\"finish_reason\":\"tool_calls\""] ++ "]"]

def twoCallsValue : Value :=
  .obj [("choices", .arr [.obj
    [("delta", .obj [("tool_calls", .arr
      [.obj [("index", .int 1), ("id", .str "b"), ("function", .obj [("name", .str "list")])],
        .obj [("index", .int 0), ("id", .str "a"), ("function", .obj
          [("name", .str "read"), ("arguments", .str "\x7b")])],
        .obj [("index", .int 0), ("id", .str ""), ("function", .obj
          [("arguments", .str "\x7d")])]])]),
      ("finish_reason", .str "tool_calls")]])]

/-- Reads the texts above as they are, and nothing else. -/
def twoCallsWire : ChatWire where
  json text :=
    if text = twoCallsText.toList then .ok twoCallsValue
    else if text = ['\x7b', '\x7d'] then .ok (.obj [])
    else .error ⟨some "Unexpected token", false⟩
  chunk
    | .obj (("choices", _) :: _) => .ok { choices := [twoCallsChoice] }
    | _ => .error ⟨some "Invalid input", false⟩

def twoCallsFrame : SseFrame := ⟨none, twoCallsText.toList⟩

theorem json_twoCalls : twoCallsWire.json twoCallsFrame.data = .ok twoCallsValue := by
  simp only [twoCallsWire, twoCallsFrame, if_true]

theorem readsEmptyObject_twoCalls : ReadsEmptyObject twoCallsWire.json := by
  have hne : ['\x7b', '\x7d'] ≠ twoCallsText.toList := by decide +kernel
  simp only [ReadsEmptyObject, twoCallsWire, if_neg hne, if_true]

theorem streams_twoCalls :
    Streams twoCallsWire twoCalls ⟨[twoCallsFrame] ++ [⟨none, sseDone⟩], none⟩ := by
  have hcarries : Carries twoCallsWire twoCallsFrame { choices := [twoCallsChoice] } :=
    ⟨by decide +kernel, twoCallsValue, json_twoCalls, rfl⟩
  refine .intro (.cons hcarries .nil) ?_ rfl (List.forall_mem_nil _) (by decide) ⟨?_, ?_, ?_⟩
    (List.forall_mem_nil _)
  · rintro frame ⟨⟩
    rfl
  · decide +kernel
  · decide +kernel
  · refine List.forall_mem_cons.mpr ⟨⟨⟨_, _, rfl, rfl, rfl, ?_⟩, by decide +kernel⟩,
      List.forall_mem_singleton.mpr ⟨⟨_, _, rfl, rfl, rfl, ?_⟩, by decide +kernel⟩⟩
    · exact List.forall_mem_singleton.mpr ⟨.inr (.inl rfl), .inl rfl⟩
    · exact List.forall_mem_nil _

theorem streamChat_calls_twoCalls :
    completed (after (streamChat twoCallsWire none
        ⟨[twoCallsFrame] ++ [⟨none, sseDone⟩], none⟩ {})) =
      (inOrder twoCalls).map fun call ↦ call.normalized twoCallsWire.json := by
  have hempty := readsEmptyObject_twoCalls
  refine (streamChat_calls hempty streams_twoCalls none).2.1 ?_
  refine List.forall_mem_cons.mpr ⟨.inr ⟨[], hempty⟩, List.forall_mem_singleton.mpr (.inl ?_)⟩
  decide +kernel

end QwenHarness.Provider
