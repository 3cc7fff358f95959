import Mathlib.Data.List.DropRight
import Mathlib.Data.List.Forall2
import QwenHarness.Context.Pairs

/-!
# What reduction keeps

Before pairs are dropped, a conversation is a front and the recent items. Dropping goes from the
first result on, and it may go past the front: into as many of the recent items as messages have
been left out. So the recent items stay exactly if no result is among those, or if the target is met
before.
-/

namespace QwenHarness

open Placed

namespace Context

/-! ## Before pairs are dropped -/

section

variable (items : List ModelInputItem) (options : ReductionOptions)

/-- The items before the recent ones, with large results replaced and without messages but for the
first item. -/
def front : List ModelInputItem :=
  let old := (items.take (options.recentStart items)).mapIdx fun i item ↦
    options.offload (options.recentStart items) i item
  old.take 1 ++ (old.drop 1).filter fun item ↦ !isMessage item

def recent : List ModelInputItem := items.drop (options.recentStart items)

/-- The items before pairs are dropped. -/
def shortened : List ModelInputItem := front items options ++ recent items options

/-- How many messages are left out. -/
def droppedMessages : ℕ := ((items.take (options.recentStart items)).drop 1).countP isMessage

end

variable {items : List ModelInputItem} {options : ReductionOptions}

theorem offload_eq (options : ReductionOptions) (start i : ℕ) (item : ModelInputItem) :
    options.offload start i item = item ∨ ∃ id name output output',
      item = .functionOutput id name output ∧
        options.offload start i item = .functionOutput id name output' := by
  cases item with
  | functionOutput id name output =>
    rw [ReductionOptions.offload]
    cases options.refOf start i (.functionOutput id name output) with
    | none => exact .inl rfl
    | some ref => exact .inr ⟨id, name, output, _, rfl, rfl⟩
  | _ => exact .inl rfl

theorem mark_offload (options : ReductionOptions) (start i : ℕ) (item : ModelInputItem) :
    mark (options.offload start i item) = mark item := by
  rcases offload_eq options start i item with h | ⟨id, name, output, output', rfl, h⟩
  · rw [h]
  · rw [h]
    rfl

theorem offload_of_le {start i : ℕ} (h : start ≤ i) (item : ModelInputItem) :
    options.offload start i item = item := by
  cases item with
  | functionOutput id name output =>
    have hnone : options.refOf start i (.functionOutput id name output) = none :=
      if_neg fun hi ↦ absurd hi.1 h.not_gt
    rw [ReductionOptions.offload, hnone]
  | _ => rfl

theorem filterMap_mark_filter (xs : List ModelInputItem) :
    (xs.filter fun item ↦ !isMessage item).filterMap mark = xs.filterMap mark := by
  induction xs with
  | nil => rfl
  | cons x xs ih =>
    rw [List.filter_cons]
    cases x with
    | message => exact ih
    | functionCall id => exact congrArg ((true, id) :: ·) ih
    | functionOutput id => exact congrArg ((false, id) :: ·) ih

theorem filterMap_mark_mapIdx (start : ℕ) (xs : List ModelInputItem) :
    (xs.mapIdx fun i item ↦ options.offload start i item).filterMap mark = xs.filterMap mark :=
  filterMap_mapIdx (mark_offload options start) xs

/-- Messages are left out from the second item on. -/
theorem filterIdx_isPruned {start : ℕ} {old : List ModelInputItem} (h : old.length ≤ start) :
    filterIdx (fun i item ↦ !isPruned start i item) old =
      old.take 1 ++ (old.drop 1).filter fun item ↦ !isMessage item := by
  rcases old with - | ⟨x, xs⟩
  · rfl
  · have hfirst : (!isPruned start 0 x) = true := rfl
    rw [filterIdx_cons, if_pos hfirst, List.take_succ_cons, List.take_zero, List.drop_succ_cons,
      List.drop_zero, List.singleton_append, ← filterIdx_const]
    refine congrArg (x :: ·) (filterIdx_congr fun i item hitem ↦ ?_)
    have hi : 0 < i + 1 ∧ i + 1 < start := by
      have := (List.getElem?_eq_some_iff.mp hitem).1
      rw [List.length_cons] at h
      omega
    rw [isPruned, decide_eq_true hi, Bool.true_and]

/-- What is left: the front and the recent items. -/
theorem filterIdx_eq_shortened : filterIdx (fun i item ↦ !isPruned (options.recentStart items) i item)
    (items.mapIdx fun i item ↦ options.offload (options.recentStart items) i item) =
      shortened items options := by
  set start := options.recentStart items with hstart
  have hlen : (items.take start).length = start := by
    rw [List.length_take, hstart, ReductionOptions.recentStart]
    omega
  have hlast : (items.drop start).mapIdx (fun i item ↦
      options.offload start (i + (items.take start).length) item) = items.drop start := by
    rw [hlen, List.mapIdx_eq_iff]
    intro i
    cases (items.drop start)[i]? with
    | none => rfl
    | some item => rw [Option.map_some, offload_of_le (Nat.le_add_left start i)]
  conv_lhs => rw [← List.take_append_drop start items]
  rw [List.mapIdx_append, hlast, filterIdx_append, List.length_mapIdx, hlen,
    filterIdx_isPruned (by rw [List.length_mapIdx, hlen])]
  refine congrArg (front items options ++ ·) (filterIdx_eq_self fun i item _ ↦ ?_)
  rw [isPruned, decide_eq_false (by omega), Bool.false_and]
  rfl

theorem filterMap_mark_front :
    (front items options).filterMap mark =
      (items.take (options.recentStart items)).filterMap mark := by
  rw [front, List.filterMap_append, filterMap_mark_filter, ← List.filterMap_append,
    List.take_append_drop, filterMap_mark_mapIdx]

theorem idsOf_front (isCall : Bool) : idsOf isCall (front items options) =
    idsOf isCall (items.take (options.recentStart items)) := by
  rw [idsOf, filterMap_mark_front, idsOf]

theorem filterMap_mark_shortened :
    (shortened items options).filterMap mark = items.filterMap mark := by
  rw [shortened, List.filterMap_append, filterMap_mark_front, ← List.filterMap_append, recent,
    List.take_append_drop]

theorem length_recentStart_le (items : List ModelInputItem) :
    (items.take (options.recentStart items)).length = options.recentStart items := by
  rw [List.length_take, ReductionOptions.recentStart]
  omega

theorem length_filter_isMessage (xs : List ModelInputItem) :
    (xs.filter fun item ↦ !isMessage item).length = (xs.filterMap mark).length := by
  rw [← filterMap_mark_filter]
  induction xs with
  | nil => rfl
  | cons x xs ih =>
    rw [List.filter_cons]
    cases x with
    | message => exact ih
    | functionCall => exact congrArg (· + 1) ih
    | functionOutput => exact congrArg (· + 1) ih

theorem countP_isMessage (xs : List ModelInputItem) :
    (xs.filterMap mark).length + xs.countP isMessage = xs.length := by
  rw [← length_filter_isMessage, ← List.countP_eq_length_filter, Nat.add_comm]
  simpa using (List.length_eq_countP_add_countP isMessage (l := xs)).symm

/-- The front is shorter than what it was made of by the messages left out. -/
theorem length_front : (front items options).length + droppedMessages items options =
    options.recentStart items := by
  rw [← length_recentStart_le items, front, droppedMessages]
  rcases items.take (options.recentStart items) with - | ⟨x, xs⟩
  · rfl
  · rw [List.mapIdx_cons, List.take_succ_cons, List.take_zero, List.drop_succ_cons, List.drop_zero,
      List.drop_succ_cons, List.drop_zero, List.length_append, length_filter_isMessage,
      filterMap_mapIdx (fun i ↦ mark_offload options _ (i + 1)), Nat.add_assoc, countP_isMessage,
      List.length_singleton, List.length_cons, Nat.add_comm]

theorem take_shortened : (shortened items options).take
    (options.recentStart items) =
      front items options ++ (recent items options).take (droppedMessages items options) := by
  rw [shortened]
  conv_lhs => rw [← length_front]
  exact List.take_length_add_append ..

/-! ## What reduction keeps -/

/-- The item itself, or the result with another text. -/
def Stands (new old : ModelInputItem) : Prop :=
  new = old ∨ ∃ id name output output', old = .functionOutput id name output ∧
    new = .functionOutput id name output'

/-- The recent items are the last of the list, results stand behind their calls, a call and its
result are dropped together only, and what is left is in order. -/
structure Keeps (preserveRecent : ℕ) (items result : List ModelInputItem) : Prop where
  recent : result.rtake preserveRecent = items.rtake preserveRecent
  paired : isPairingIntact result = true
  call_dropped : ∀ id ∈ callIds items, id ∉ callIds result →
    id ∈ outputIds items ∧ id ∉ outputIds result
  output_dropped : ∀ id ∈ outputIds items, id ∉ outputIds result → id ∉ callIds result
  ordered : List.SublistForall₂ Stands result items

/-- None of the recent items in reach is a result, or enough pairs lie before them. -/
def SparesRecent (items : List ModelInputItem) (options : ReductionOptions) : Prop :=
  match options.targetTokens with
  | none => True
  | some target =>
    let old := outputIds (items.take (options.recentStart items))
    outputIds ((recent items options).take (droppedMessages items options)) = [] ∨
      ∃ j ≤ old.length, estimateItems
        (without (old.take j) (shortened items options)) options.estimator ≤
          target

theorem sublistForall₂_of_sublist {new old kept : List ModelInputItem} (h : kept.Sublist new)
    (hnew : List.Forall₂ Stands new old) : List.SublistForall₂ Stands kept old := by
  induction h generalizing old with
  | slnil => exact .nil
  | cons x _ ih =>
    obtain ⟨y, ys, -, hys, rfl⟩ := List.forall₂_cons_left_iff.mp hnew
    exact (ih hys).cons_right
  | cons_cons x _ ih =>
    obtain ⟨y, ys, hy, hys, rfl⟩ := List.forall₂_cons_left_iff.mp hnew
    exact (ih hys).cons hy

theorem forall₂_offload (start : ℕ) (xs : List ModelInputItem) : List.Forall₂ Stands
    (xs.mapIdx fun i item ↦ options.offload start i item) xs := by
  refine List.forall₂_iff_get.mpr ⟨List.length_mapIdx, fun i h _ ↦ ?_⟩
  rw [List.get_eq_getElem, List.getElem_mapIdx]
  rcases offload_eq options start i (xs.get ⟨i, by simpa using h⟩) with hsame | hother
  · exact .inl hsame
  · exact .inr hother

/-- What is left without some ids is paired and in order. -/
theorem keeps_without (h : WellPaired items) {ids : List String}
    (hids : ∀ id ∈ ids, id ∈ outputIds items)
    (hrecent : (without ids (shortened items options)).rtake
      (options.preserveRecent.getD 4) = items.rtake (options.preserveRecent.getD 4)) :
    Keeps (options.preserveRecent.getD 4) items
      (without ids (shortened items options)) where
  recent := hrecent
  paired := pairingFrom_without (fun id hid _ ↦ hid) (h.of_marks filterMap_mark_shortened).intact
  call_dropped id hid hdropped := by
    rw [callIds, mem_idsOf_without, idsOf, filterMap_mark_shortened, ← idsOf] at hdropped
    have hin : id ∈ ids := by
      by_contra hnot
      exact hdropped ⟨hid, hnot⟩
    refine ⟨hids id hin, fun hout ↦ ?_⟩
    rw [outputIds, mem_idsOf_without] at hout
    exact hout.2 hin
  output_dropped id hid hdropped hcall := by
    rw [outputIds, mem_idsOf_without, idsOf, filterMap_mark_shortened, ← idsOf] at hdropped
    rw [callIds, mem_idsOf_without] at hcall
    exact hdropped ⟨hid, hcall.2⟩
  ordered := by
    refine sublistForall₂_of_sublist (List.filter_sublist.trans ?_)
      (@forall₂_offload options (options.recentStart items) items)
    rw [← filterIdx_eq_shortened]
    exact filterIdx_sublist _ _

theorem pairingFrom_of_append {seen : List String} {xs ys : List ModelInputItem}
    (h : pairingFrom seen (xs ++ ys) = true) : pairingFrom seen xs = true := by
  induction xs generalizing seen with
  | nil => rfl
  | cons x xs ih =>
    cases x with
    | message => exact ih h
    | functionCall => exact ih h
    | functionOutput =>
      obtain ⟨hcall, hrest⟩ := (Bool.and_eq_true _ _).mp h
      exact (Bool.and_eq_true _ _).mpr ⟨hcall, ih hrest⟩

theorem Pair.In.append {p : Pair} {xs : List ModelInputItem} (h : p.In xs)
    (ys : List ModelInputItem) : p.In (xs ++ ys) := by
  obtain ⟨⟨call, hcall, hcallMark⟩, ⟨output, houtput, houtputMark⟩, hlt⟩ := h
  refine ⟨⟨call, ?_, hcallMark⟩, ⟨output, ?_, houtputMark⟩, hlt⟩
  · rw [List.getElem?_append_left (List.getElem?_eq_some_iff.mp hcall).1, hcall]
  · rw [List.getElem?_append_left (List.getElem?_eq_some_iff.mp houtput).1, houtput]

/-- Without a target no pair is dropped. -/
theorem items_of_no_target (h : options.targetTokens = none) :
    (reduceContext items options).items = shortened items options := by
  rw [reduceContext, h]
  exact filterIdx_eq_shortened

/-- **The items that are left** under a target are those without the ids of the first results, as
many as it takes. -/
theorem items_of_target (h : WellPaired items) {target : ℚ}
    (htarget : options.targetTokens = some target) {ids : List String}
    (hids : outputIds ((shortened items options).take (options.recentStart items)) = ids) :
    ∃ m ≤ ids.length,
      (reduceContext items options).items = without (ids.take m) (shortened items options) ∧
      (m = ids.length ∨ estimateItems (without (ids.take m) (shortened items options))
        options.estimator ≤ target) ∧
      ∀ j < m, ¬ estimateItems (without (ids.take j) (shortened items options))
        options.estimator ≤ target := by
  set start := options.recentStart items with hstart
  set pairs := completePairs ((shortened items options).take start) with hpairs
  have hpaired : WellPaired (shortened items options) := h.of_marks filterMap_mark_shortened
  have hsplit := List.take_append_drop start (shortened items options)
  have hmap : pairs.map Pair.callId = ids := by
    rw [← hids]
    refine map_callId_pairsFrom (fun _ hid ↦ absurd hid List.not_mem_nil)
      (@pairingFrom_of_append _ _ ((shortened items options).drop start) ?_)
    rw [hsplit]
    exact hpaired.intact
  have hin : ∀ p ∈ pairs, p.In (shortened items options) := by
    intro p hp
    rw [← hsplit]
    exact (pair_spec records_nil hp).1.append _
  have hsurviving (j : ℕ) : surviving (shortened items options) ([] ++ placesOf (pairs.take j)) =
      without (ids.take j) (shortened items options) := by
    rw [List.nil_append, surviving_placesOf hpaired fun p hp ↦ hin p (List.mem_of_mem_take hp),
      List.map_take, hmap]
  obtain ⟨m, hm, hdropped, hstop, hbefore⟩ :=
    dropPairs_spec (shortened items options) target options.estimator [] pairs
  simp only [hsurviving] at hstop hbefore
  have hlen : ids.length = pairs.length := by rw [← hmap, List.length_map]
  rw [← hlen] at hm hstop
  refine ⟨m, hm, ?_, hstop, hbefore⟩
  rw [← hsurviving, ← hdropped, reduceContext, htarget, hpairs, ← completePairs_take]
  dsimp only [dropOldestPairsUntil]
  rw [← hstart, filterIdx_eq_shortened]

/-! ## The recent items -/

theorem length_recent : (recent items options).length =
    min items.length (options.preserveRecent.getD 4) := by
  rw [recent, List.length_drop, ReductionOptions.recentStart]
  omega

/-- The recent items are the last, whatever stands before them; where all items are recent, nothing
does. -/
theorem rtake_append_recent {old : List ModelInputItem}
    (h : options.recentStart items = 0 → old = []) :
    (old ++ recent items options).rtake (options.preserveRecent.getD 4) =
      items.rtake (options.preserveRecent.getD 4) := by
  have hlen : (recent items options).length =
      min items.length (options.preserveRecent.getD 4) := length_recent
  change List.drop _ _ = recent items options
  by_cases hk : options.preserveRecent.getD 4 ≤ items.length
  · rw [min_eq_right hk] at hlen
    rw [List.length_append, hlen, Nat.add_sub_cancel, List.drop_left]
  · rw [h (by rw [ReductionOptions.recentStart]; omega), List.nil_append]
    rw [min_eq_left (Nat.le_of_not_ge hk)] at hlen
    rw [hlen, Nat.sub_eq_zero_of_le (Nat.le_of_not_ge hk), List.drop_zero]

theorem front_eq_nil (h : options.recentStart items = 0) : front items options = [] := by
  rw [front, h]
  rfl

theorem mem_callIds_of_pairingFrom {seen : List String} {xs : List ModelInputItem} {id : String}
    (h : pairingFrom seen xs = true) (hid : id ∈ outputIds xs) : id ∈ seen ∨ id ∈ callIds xs := by
  induction xs generalizing seen with
  | nil => cases hid
  | cons x xs ih =>
    cases x with
    | message => exact ih h hid
    | functionCall id' =>
      rcases ih h hid with hseen | hcall
      · rcases List.mem_cons.mp hseen with rfl | hseen
        · exact .inr List.mem_cons_self
        · exact .inl hseen
      · exact .inr (List.mem_cons_of_mem _ hcall)
    | functionOutput id' =>
      obtain ⟨hcall, hrest⟩ := (Bool.and_eq_true _ _).mp h
      rcases List.mem_cons.mp (show id ∈ id' :: outputIds xs from hid) with rfl | hid
      · exact .inl (List.contains_iff_mem.mp hcall)
      · exact ih hrest hid

/-- A result in the first items has its call there. -/
theorem WellPaired.call_of_output (h : WellPaired items) {n : ℕ} {id : String}
    (hid : id ∈ outputIds (items.take n)) : id ∈ callIds (items.take n) := by
  have hintact := h.intact
  rw [← List.take_append_drop n items] at hintact
  exact (mem_callIds_of_pairingFrom (pairingFrom_of_append hintact) hid).resolve_left
    List.not_mem_nil

theorem WellPaired.disjoint (h : WellPaired items) {n : ℕ} {isCall : Bool} {id : String}
    (hold : id ∈ idsOf isCall (items.take n)) (hnew : id ∈ idsOf isCall (items.drop n)) :
    False := by
  have hnodup := h.nodup isCall
  rw [← List.take_append_drop n items, idsOf_append] at hnodup
  exact List.disjoint_of_nodup_append hnodup hold hnew

/-- Without the ids of results in the front, the recent items stay. -/
theorem recent_of_front (h : WellPaired items) {ids : List String}
    (hids : ∀ id ∈ ids, id ∈ outputIds (items.take (options.recentStart items))) :
    (without ids (shortened items options)).rtake (options.preserveRecent.getD 4) =
      items.rtake (options.preserveRecent.getD 4) := by
  have hkeep : without ids (recent items options) = recent items options := by
    refine without_eq_self fun isCall id hid hin ↦ ?_
    have hout : id ∈ outputIds (items.take (options.recentStart items)) := hids id hin
    cases isCall with
    | true => exact h.disjoint (h.call_of_output hout) hid
    | false => exact h.disjoint hout hid
  rw [shortened, without_append, hkeep]
  exact rtake_append_recent fun hstart ↦ by rw [front_eq_nil hstart]; rfl

/-- Without the id of a result among the recent items, these do not stay. -/
theorem not_recent_of_mem {ids : List String} {id : String} (hid : id ∈ ids)
    (hrecent : id ∈ outputIds (recent items options)) :
    (without ids (shortened items options)).rtake (options.preserveRecent.getD 4) ≠
      items.rtake (options.preserveRecent.getD 4) := by
  intro hsame
  have hmem : id ∈ outputIds ((without ids (shortened items options)).rtake
      (options.preserveRecent.getD 4)) := by
    rw [hsame]
    exact hrecent
  obtain ⟨item, hitem, hmark⟩ := mem_idsOf.mp hmem
  have hleft : id ∈ outputIds (without ids (shortened items options)) :=
    mem_idsOf.mpr ⟨item, List.mem_of_mem_drop hitem, hmark⟩
  exact (mem_idsOf_without.mp hleft).2 hid

/-- **Reduction keeps** the recent items, the pairs and the order exactly if none of the recent
items in reach is a result, or dropping pairs before them is enough. -/
theorem keeps_iff (h : WellPaired items) :
    Keeps (options.preserveRecent.getD 4) items (reduceContext items options).items ↔
      SparesRecent items options := by
  rcases htarget : options.targetTokens with - | target
  · have hall : without [] (shortened items options) = shortened items options :=
      without_eq_self fun _ _ _ ↦ List.not_mem_nil
    rw [SparesRecent, htarget, items_of_no_target htarget, ← hall, iff_true]
    exact keeps_without h (fun id hid ↦ absurd hid List.not_mem_nil)
      (recent_of_front h fun id hid ↦ absurd hid List.not_mem_nil)
  rw [SparesRecent, htarget]
  dsimp only
  set old := outputIds (items.take (options.recentStart items)) with hold
  set reached := outputIds ((recent items options).take (droppedMessages items options))
    with hreached
  have hids : outputIds ((shortened items options).take (options.recentStart items)) =
      old ++ reached := by
    rw [take_shortened, outputIds, idsOf_append, idsOf_front]
    rfl
  obtain ⟨m, hm, hitems, hstop, hbefore⟩ := items_of_target h htarget hids
  rw [hitems]
  constructor
  · intro hkeeps
    by_contra hnot
    obtain ⟨hne, hmany⟩ := not_or.mp hnot
    obtain ⟨id, rest, hcons⟩ := List.exists_cons_of_ne_nil hne
    -- the loop goes on past the pairs of the front
    have hpast : old.length < m := by
      by_contra hle
      have hle := Nat.le_of_not_lt hle
      have htake : (old ++ reached).take m = old.take m := List.take_append_of_le_length hle
      rcases hstop with rfl | hstop
      · rw [hcons, List.length_append, List.length_cons] at hle
        omega
      · exact hmany ⟨m, hle, htake ▸ hstop⟩
    have hid : id ∈ (old ++ reached).take m := by
      rw [List.take_append, List.take_of_length_le hpast.le, hcons]
      refine List.mem_append_right _ ?_
      obtain ⟨k, hk⟩ := Nat.exists_eq_succ_of_ne_zero (Nat.sub_pos_of_lt hpast).ne'
      rw [hk, List.take_succ_cons]
      exact List.mem_cons_self
    refine not_recent_of_mem hid ?_ hkeeps.recent
    have hmem : id ∈ reached := hcons ▸ List.mem_cons_self
    obtain ⟨item, hitem, hmark⟩ := mem_idsOf.mp hmem
    exact mem_idsOf.mpr ⟨item, List.mem_of_mem_take hitem, hmark⟩
  · intro hspares
    -- the loop stops within the pairs of the front
    have hle : (old ++ reached).take m = old.take m := by
      rcases hspares with hnil | ⟨j, hj, hle⟩
      · rw [hnil, List.append_nil]
      · have hmj : m ≤ j := by
          by_contra hlt
          refine hbefore j (Nat.lt_of_not_le hlt) ?_
          rwa [List.take_append_of_le_length hj]
        exact List.take_append_of_le_length (hmj.trans hj)
    rw [hle]
    refine keeps_without h (fun id hid ↦ ?_)
      (recent_of_front h fun id hid ↦ List.mem_of_mem_take hid)
    obtain ⟨item, hitem, hmark⟩ := mem_idsOf.mp (List.mem_of_mem_take hid)
    exact mem_idsOf.mpr ⟨item, List.mem_of_mem_take hitem, hmark⟩

/-! ### A result among the recent items -/

/-- Two messages are left out, and the last call is dropped with its result, recent as they are. -/
def reachedItems : List ModelInputItem :=
  [.message .user "goal", .message .assistant "one", .message .assistant "two",
    .functionCall "a" "t" "\x7b\x7d", .functionOutput "a" "t" "out"]

def reachingOptions : ReductionOptions where
  estimate := some fun _ ↦ 1
  makeRefId _ _ _ _ := "ref"
  offloadThresholdChars := none
  preserveRecent := some 2
  previewOptions := ⟨none, none⟩
  targetTokens := some 0

theorem wellPaired_reachedItems : WellPaired reachedItems where
  intact := by decide
  nodup := by decide

theorem keeps_iff_reachedItems : Keeps 2 reachedItems
    (reduceContext reachedItems { reachingOptions with targetTokens := none }).items :=
  (@keeps_iff reachedItems { reachingOptions with targetTokens := none }
    wellPaired_reachedItems).mpr trivial

theorem items_reachedItems :
    (reduceContext reachedItems reachingOptions).items = [.message .user "goal"] := by
  decide +kernel

theorem not_keeps_reachedItems : ¬ ∀ (items : List ModelInputItem) (options : ReductionOptions),
    WellPaired items →
      Keeps (options.preserveRecent.getD 4) items (reduceContext items options).items := by
  intro hall
  have hkeeps := (hall reachedItems reachingOptions wellPaired_reachedItems).recent
  rw [items_reachedItems] at hkeeps
  exact absurd hkeeps (by decide)

end Context

end QwenHarness
