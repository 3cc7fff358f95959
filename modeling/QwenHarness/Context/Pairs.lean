import QwenHarness.Context.Reduction

/-!
# Calls and their results

A conversation is well paired if every result comes after its call and no id is used twice. The
pairs that reduction finds are then the calls and the results of one id each, in the order of the
results, and dropping some of them is leaving out some ids.
-/

namespace QwenHarness

open Placed

namespace Context

/-! ## Ids -/

/-- Whether an item is a call, and its id. A message is neither a call nor a result. -/
def mark : ModelInputItem → Option (Bool × String)
  | .message _ _ => none
  | .functionCall callId _ _ => some (true, callId)
  | .functionOutput callId _ _ => some (false, callId)

def idsOf (isCall : Bool) (items : List ModelInputItem) : List String :=
  (items.filterMap mark).filterMap fun m ↦ if m.1 = isCall then some m.2 else none

def callIds : List ModelInputItem → List String := idsOf true

def outputIds : List ModelInputItem → List String := idsOf false

/-- Every result comes after its call, and no two calls and no two results share an id. -/
structure WellPaired (items : List ModelInputItem) : Prop where
  intact : isPairingIntact items = true
  nodup : ∀ isCall, (idsOf isCall items).Nodup

theorem mem_idsOf {isCall : Bool} {items : List ModelInputItem} {id : String} :
    id ∈ idsOf isCall items ↔ ∃ item ∈ items, mark item = some (isCall, id) := by
  rw [idsOf, List.filterMap_filterMap]
  simp only [List.mem_filterMap, Option.bind_eq_some_iff, Option.ite_none_right_eq_some]
  constructor
  · rintro ⟨item, hmem, ⟨c, i⟩, hmark, rfl, hid⟩
    exact ⟨item, hmem, by rw [hmark, ← Option.some.inj hid]⟩
  · rintro ⟨item, hmem, hmark⟩
    exact ⟨item, hmem, (isCall, id), hmark, rfl, rfl⟩

theorem idsOf_append (isCall : Bool) (xs ys : List ModelInputItem) :
    idsOf isCall (xs ++ ys) = idsOf isCall xs ++ idsOf isCall ys := by
  rw [idsOf, List.filterMap_append, List.filterMap_append]
  rfl

/-- The same check on the marks alone. -/
def marksFrom (seenCalls : List String) : List (Bool × String) → Bool
  | [] => true
  | (true, id) :: ms => marksFrom (id :: seenCalls) ms
  | (false, id) :: ms => seenCalls.contains id && marksFrom seenCalls ms

theorem pairingFrom_eq (seenCalls : List String) (items : List ModelInputItem) :
    pairingFrom seenCalls items = marksFrom seenCalls (items.filterMap mark) := by
  induction items generalizing seenCalls with
  | nil => rfl
  | cons item items ih =>
    cases item with
    | message role text => exact ih seenCalls
    | functionCall id name argumentsJson => exact ih _
    | functionOutput id name output => exact congrArg (seenCalls.contains id && ·) (ih seenCalls)

/-- What has the same marks is paired as well. -/
theorem WellPaired.of_marks {xs ys : List ModelInputItem} (h : WellPaired xs)
    (hmarks : ys.filterMap mark = xs.filterMap mark) : WellPaired ys where
  intact := by
    rw [isPairingIntact, pairingFrom_eq, hmarks, ← pairingFrom_eq]
    exact h.intact
  nodup isCall := by
    rw [idsOf, hmarks]
    exact h.nodup isCall

/-! ## Without some ids -/

/-- Whether an item is a call or a result with one of the ids. -/
def isOf (ids : List String) (item : ModelInputItem) : Bool :=
  (mark item).any fun m ↦ ids.contains m.2

/-- The items but for the calls and the results with the ids. -/
def without (ids : List String) (items : List ModelInputItem) : List ModelInputItem :=
  items.filter fun item ↦ !isOf ids item

theorem isOf_of_mark {ids : List String} {item : ModelInputItem} {m : Bool × String}
    (h : mark item = some m) : isOf ids item = ids.contains m.2 := by
  rw [isOf, h, Option.any_some]

theorem mem_idsOf_without {isCall : Bool} {ids : List String} {items : List ModelInputItem}
    {id : String} : id ∈ idsOf isCall (without ids items) ↔ id ∈ idsOf isCall items ∧ id ∉ ids := by
  rw [mem_idsOf, mem_idsOf]
  constructor
  · rintro ⟨item, hmem, hmark⟩
    obtain ⟨hmem, hnot⟩ := List.mem_filter.mp hmem
    rw [isOf_of_mark hmark] at hnot
    exact ⟨⟨item, hmem, hmark⟩, by simpa using hnot⟩
  · rintro ⟨⟨item, hmem, hmark⟩, hnot⟩
    refine ⟨item, List.mem_filter.mpr ⟨hmem, ?_⟩, hmark⟩
    rw [isOf_of_mark hmark]
    simpa using hnot

/-- Calls and results that go together leave the rest paired. -/
theorem pairingFrom_without {ids seen seen' : List String} {items : List ModelInputItem}
    (hseen : ∀ id ∈ seen, id ∉ ids → id ∈ seen') (h : pairingFrom seen items = true) :
    pairingFrom seen' (without ids items) = true := by
  induction items generalizing seen seen' with
  | nil => rfl
  | cons item items ih =>
    rw [without, List.filter_cons]
    cases item with
    | message role text => exact ih hseen h
    | functionCall id name argumentsJson =>
      have hmark : mark (.functionCall id name argumentsJson) = some (true, id) := rfl
      rw [isOf_of_mark hmark]
      by_cases hid : id ∈ ids
      · rw [if_neg (by simpa using hid)]
        refine ih (fun id' hid' hnot ↦ ?_) h
        rcases List.mem_cons.mp hid' with rfl | hid'
        · exact absurd hid hnot
        · exact hseen id' hid' hnot
      · rw [if_pos (by simpa using hid)]
        refine ih (fun id' hid' hnot ↦ ?_) h
        rcases List.mem_cons.mp hid' with rfl | hid'
        · exact List.mem_cons_self
        · exact List.mem_cons_of_mem _ (hseen id' hid' hnot)
    | functionOutput id name output =>
      have hmark : mark (.functionOutput id name output) = some (false, id) := rfl
      obtain ⟨hcall, hrest⟩ := (Bool.and_eq_true _ _).mp h
      rw [isOf_of_mark hmark]
      by_cases hid : id ∈ ids
      · rw [if_neg (by simpa using hid)]
        exact ih hseen hrest
      · rw [if_pos (by simpa using hid)]
        refine (Bool.and_eq_true _ _).mpr ⟨?_, ih hseen hrest⟩
        exact List.contains_iff_mem.mpr (hseen id (List.contains_iff_mem.mp hcall) hid)

theorem without_append (ids : List String) (xs ys : List ModelInputItem) :
    without ids (xs ++ ys) = without ids xs ++ without ids ys := List.filter_append ..

theorem without_eq_self {ids : List String} {items : List ModelInputItem}
    (h : ∀ isCall, ∀ id ∈ idsOf isCall items, id ∉ ids) : without ids items = items := by
  refine List.filter_eq_self.mpr fun item hmem ↦ ?_
  cases hmark : mark item with
  | none => rw [isOf, hmark]; rfl
  | some m =>
    rw [isOf_of_mark hmark]
    simpa using h m.1 m.2 (mem_idsOf.mpr ⟨item, hmem, hmark⟩)

/-! ## The pairs -/

/-- The places that are known are those of calls. -/
def Records (callIndex : String → Option ℕ) (before : List ModelInputItem) : Prop :=
  ∀ id k, callIndex id = some k → ∃ item, before[k]? = some item ∧ mark item = some (true, id)

theorem records_nil : Records (fun _ ↦ none) [] := fun _ _ h ↦ by cases h

theorem Records.append {callIndex : String → Option ℕ} {before : List ModelInputItem}
    (h : Records callIndex before) (after : List ModelInputItem) :
    Records callIndex (before ++ after) := by
  intro id k hk
  obtain ⟨item, hitem, hmark⟩ := h id k hk
  refine ⟨item, ?_, hmark⟩
  rw [List.getElem?_append_left (List.getElem?_eq_some_iff.mp hitem).1, hitem]

theorem Records.call {callIndex : String → Option ℕ} {before : List ModelInputItem}
    (h : Records callIndex before) (id name argumentsJson : String) :
    Records (Function.update callIndex id (some before.length))
      (before ++ [.functionCall id name argumentsJson]) := by
  intro id' k hk
  by_cases hid : id' = id
  · subst hid
    rw [Function.update_self] at hk
    obtain rfl := Option.some.inj hk
    exact ⟨_, List.getElem?_concat_length .., rfl⟩
  · rw [Function.update_of_ne hid] at hk
    exact h.append _ id' k hk

/-- A call and a later result of one id. -/
structure Pair.In (items : List ModelInputItem) (p : Pair) : Prop where
  call : ∃ item, items[p.callIndex]? = some item ∧ mark item = some (true, p.callId)
  output : ∃ item, items[p.outputIndex]? = some item ∧ mark item = some (false, p.callId)
  lt : p.callIndex < p.outputIndex

theorem pair_spec {callIndex : String → Option ℕ} {before items : List ModelInputItem}
    (h : Records callIndex before) {p : Pair} (hp : p ∈ pairsFrom callIndex before.length items) :
    p.In (before ++ items) ∧ before.length ≤ p.outputIndex := by
  induction items generalizing callIndex before with
  | nil => cases hp
  | cons item items ih =>
    have hsplit : before ++ item :: items = (before ++ [item]) ++ items := by
      rw [List.append_assoc, List.singleton_append]
    have hlen : (before ++ [item]).length = before.length + 1 := List.length_append
    -- what is said of the items behind this one
    have hrest {seen : String → Option ℕ} (hseen : Records seen (before ++ [item]))
        (hp : p ∈ pairsFrom seen (before.length + 1) items) :
        p.In (before ++ item :: items) ∧ before.length ≤ p.outputIndex := by
      rw [← hlen] at hp
      rw [hsplit]
      exact ⟨(ih hseen hp).1, (Nat.le_succ _).trans (hlen.ge.trans (ih hseen hp).2)⟩
    cases item with
    | message role text => exact hrest (h.append _) hp
    | functionCall id name argumentsJson => exact hrest (h.call id name argumentsJson) hp
    | functionOutput id name output =>
      rw [pairsFrom] at hp
      rcases hci : callIndex id with - | ci
      · rw [hci] at hp
        exact hrest (h.append _) hp
      · rw [hci] at hp
        rcases List.mem_cons.mp hp with rfl | hp
        · obtain ⟨call, hcall, hmark⟩ := h id ci hci
          have hlt := (List.getElem?_eq_some_iff.mp hcall).1
          refine ⟨⟨⟨call, ?_, hmark⟩, ⟨.functionOutput id name output, ?_, rfl⟩, hlt⟩, le_rfl⟩
          · rw [List.getElem?_append_left hlt, hcall]
          · rw [List.getElem?_append_right le_rfl, Nat.sub_self]
            rfl
        · exact hrest (h.append _) hp

/-- Where every result comes after its call, there is a pair for every result. -/
theorem map_callId_pairsFrom {callIndex : String → Option ℕ} {seen : List String} {i : ℕ}
    {items : List ModelInputItem} (hseen : ∀ id ∈ seen, callIndex id ≠ none)
    (h : pairingFrom seen items = true) :
    (pairsFrom callIndex i items).map Pair.callId = outputIds items := by
  induction items generalizing callIndex seen i with
  | nil => rfl
  | cons item items ih =>
    cases item with
    | message role text => exact ih hseen h
    | functionCall id name argumentsJson =>
      refine ih (fun id' hid' ↦ ?_) h
      by_cases hid : id' = id
      · rw [hid, Function.update_self]
        exact Option.some_ne_none _
      · rw [Function.update_of_ne hid]
        exact hseen id' ((List.mem_cons.mp hid').resolve_left hid)
    | functionOutput id name output =>
      obtain ⟨hcall, hrest⟩ := (Bool.and_eq_true _ _).mp h
      obtain ⟨ci, hci⟩ := Option.ne_none_iff_exists'.mp
        (hseen id (List.contains_iff_mem.mp hcall))
      rw [pairsFrom, hci]
      exact congrArg (id :: ·) (ih hseen hrest)

theorem outputIndex_lt {callIndex : String → Option ℕ} {i : ℕ} {items : List ModelInputItem}
    {p : Pair} (hp : p ∈ pairsFrom callIndex i items) : p.outputIndex < i + items.length := by
  induction items generalizing callIndex i with
  | nil => cases hp
  | cons item items ih =>
    have hrest {seen : String → Option ℕ} (hp : p ∈ pairsFrom seen (i + 1) items) :
        p.outputIndex < i + (item :: items).length := by
      have := ih hp
      rw [List.length_cons]
      omega
    cases item with
    | message role text => exact hrest hp
    | functionCall id name argumentsJson => exact hrest hp
    | functionOutput id name output =>
      rw [pairsFrom] at hp
      rcases hci : callIndex id with - | ci
      · rw [hci] at hp
        exact hrest hp
      · rw [hci] at hp
        rcases List.mem_cons.mp hp with rfl | hp
        · exact Nat.lt_add_of_pos_right (List.length_pos_of_ne_nil (List.cons_ne_nil _ _))
        · exact hrest hp

/-- The pairs of a list in two parts. -/
theorem pairsFrom_append {callIndex : String → Option ℕ} {before xs : List ModelInputItem}
    (h : Records callIndex before) (ys : List ModelInputItem) :
    ∃ seen, Records seen (before ++ xs) ∧ pairsFrom callIndex before.length (xs ++ ys) =
      pairsFrom callIndex before.length xs ++ pairsFrom seen (before ++ xs).length ys := by
  induction xs generalizing callIndex before with
  | nil => exact ⟨callIndex, h.append [], by rw [List.append_nil]; rfl⟩
  | cons x xs ih =>
    have hlen : (before ++ [x]).length = before.length + 1 := List.length_append
    have hrest {seen : String → Option ℕ} (hseen : Records seen (before ++ [x])) := by
      have := ih hseen
      rw [hlen, List.append_assoc, List.singleton_append] at this
      exact this
    cases x with
    | message role text => exact hrest (h.append _)
    | functionCall id name argumentsJson => exact hrest (h.call id name argumentsJson)
    | functionOutput id name output =>
      obtain ⟨seen, hseen, hpairs⟩ := hrest (h.append _)
      refine ⟨seen, hseen, ?_⟩
      rw [List.cons_append, pairsFrom, pairsFrom]
      rcases callIndex id with - | ci
      · exact hpairs
      · exact congrArg (⟨id, ci, before.length⟩ :: ·) hpairs

/-- The pairs with both places before a boundary are the pairs of the items before it. -/
theorem completePairs_take (items : List ModelInputItem) (boundary : ℕ) :
    (completePairs items).filter (fun p ↦
      decide (p.callIndex < boundary) && decide (p.outputIndex < boundary)) =
      completePairs (items.take boundary) := by
  obtain ⟨seen, hseen, hpairs⟩ :=
    @pairsFrom_append _ [] (items.take boundary) records_nil (items.drop boundary)
  rw [List.take_append_drop, List.nil_append, List.length_nil] at hpairs
  rw [List.nil_append] at hseen
  have hfirst : ∀ p ∈ completePairs (items.take boundary),
      (decide (p.callIndex < boundary) && decide (p.outputIndex < boundary)) = true := by
    intro p hp
    have hout := outputIndex_lt hp
    have hlen := List.length_take_le boundary items
    have hlt : p.callIndex < p.outputIndex := (pair_spec records_nil hp).1.lt
    simp only [Bool.and_eq_true, decide_eq_true_eq]
    omega
  have hsecond : ∀ p ∈ pairsFrom seen (items.take boundary).length (items.drop boundary),
      (decide (p.callIndex < boundary) && decide (p.outputIndex < boundary)) = false := by
    intro p hp
    have hle := (pair_spec hseen hp).2
    have hout := outputIndex_lt hp
    simp only [List.length_take, List.length_drop] at hle hout
    simp only [Bool.and_eq_false_iff, decide_eq_false_iff_not]
    omega
  rw [completePairs, hpairs, List.filter_append]
  refine (congrArg₂ (· ++ ·) (List.filter_eq_self.mpr hfirst)
    (List.filter_eq_nil_iff.mpr fun p hp ↦ ?_)).trans (List.append_nil _)
  rw [hsecond p hp]
  decide

/-! ## Dropping -/

/-- The places of the calls and the results of some pairs. -/
def placesOf (pairs : List Pair) : List ℕ := pairs.flatMap fun p ↦ [p.callIndex, p.outputIndex]

theorem mem_placesOf {pairs : List Pair} {i : ℕ} :
    i ∈ placesOf pairs ↔ ∃ p ∈ pairs, i = p.callIndex ∨ i = p.outputIndex := by
  simp only [placesOf, List.mem_flatMap, List.mem_cons, List.not_mem_nil, or_false]

theorem WellPaired.place_unique {items : List ModelInputItem} (h : WellPaired items)
    {isCall : Bool} {id : String} {i j : ℕ} {x y : ModelInputItem} (hi : items[i]? = some x)
    (hj : items[j]? = some y) (hx : mark x = some (isCall, id)) (hy : mark y = some (isCall, id)) :
    i = j := by
  have hnodup := h.nodup isCall
  rw [idsOf, List.filterMap_filterMap] at hnodup
  refine Placed.place_unique hnodup hi hj (?_ : _ = some id) ?_
  · rw [hx]
    exact if_pos rfl
  · rw [hy]
    exact if_pos rfl

/-- Dropping pairs is leaving out the calls and the results with their ids. -/
theorem surviving_placesOf {items : List ModelInputItem} (h : WellPaired items)
    {pairs : List Pair} (hpairs : ∀ p ∈ pairs, p.In items) :
    surviving items (placesOf pairs) = without (pairs.map Pair.callId) items := by
  rw [surviving, without, ← filterIdx_const]
  refine filterIdx_congr fun i item hitem ↦ congrArg (! ·) (Bool.eq_iff_iff.mpr ?_)
  rw [List.contains_iff_mem, mem_placesOf]
  constructor
  · rintro ⟨p, hp, rfl | rfl⟩
    · obtain ⟨call, hcall, hmark⟩ := (hpairs p hp).call
      obtain rfl := Option.some.inj (hcall.symm.trans hitem)
      rw [isOf_of_mark hmark]
      exact List.contains_iff_mem.mpr (List.mem_map_of_mem hp)
    · obtain ⟨output, houtput, hmark⟩ := (hpairs p hp).output
      obtain rfl := Option.some.inj (houtput.symm.trans hitem)
      rw [isOf_of_mark hmark]
      exact List.contains_iff_mem.mpr (List.mem_map_of_mem hp)
  · intro hof
    rcases hmark : mark item with - | ⟨isCall, id⟩
    · rw [isOf, hmark] at hof
      cases hof
    · rw [isOf_of_mark hmark] at hof
      obtain ⟨p, hp, rfl⟩ := List.mem_map.mp (List.contains_iff_mem.mp hof)
      refine ⟨p, hp, ?_⟩
      cases isCall with
      | true =>
        obtain ⟨call, hcall, hmark'⟩ := (hpairs p hp).call
        exact .inl (h.place_unique hitem hcall hmark hmark')
      | false =>
        obtain ⟨output, houtput, hmark'⟩ := (hpairs p hp).output
        exact .inr (h.place_unique hitem houtput hmark hmark')

/-- **The loop** drops pairs from the front, as many as it takes. -/
theorem dropPairs_spec (items : List ModelInputItem) (target : ℚ) (estimate : TokenEstimator)
    (remove : List ℕ) (pairs : List Pair) : ∃ m ≤ pairs.length,
      (dropPairs items target estimate remove pairs).1 = remove ++ placesOf (pairs.take m) ∧
      (m = pairs.length ∨ estimateItems (surviving items (remove ++ placesOf (pairs.take m)))
        estimate ≤ target) ∧
      ∀ j < m, ¬ estimateItems (surviving items (remove ++ placesOf (pairs.take j)))
        estimate ≤ target := by
  induction pairs generalizing remove with
  | nil => exact ⟨0, le_rfl, (List.append_nil _).symm, .inl rfl, fun j hj ↦ absurd hj j.not_lt_zero⟩
  | cons pair pairs ih =>
    rw [dropPairs]
    split_ifs with hle
    · refine ⟨0, Nat.zero_le _, (List.append_nil _).symm, .inr ?_,
        fun j hj ↦ absurd hj j.not_lt_zero⟩
      rw [List.take_zero, placesOf, List.flatMap_nil, List.append_nil]
      exact hle
    · obtain ⟨m, hm, hdropped, hstop, hbefore⟩ :=
        ih (remove ++ [pair.callIndex, pair.outputIndex])
      have hplaces (j : ℕ) : remove ++ [pair.callIndex, pair.outputIndex] ++
          placesOf (pairs.take j) = remove ++ placesOf ((pair :: pairs).take (j + 1)) := by
        rw [List.append_assoc, List.take_succ_cons]
        rfl
      simp only [hplaces] at hdropped hstop hbefore
      refine ⟨m + 1, Nat.succ_le_succ hm, hdropped, hstop.imp_left (congrArg (· + 1)), ?_⟩
      intro j hj
      rcases j with - | j
      · rw [List.take_zero, placesOf, List.flatMap_nil, List.append_nil]
        exact hle
      · exact hbefore j (Nat.lt_of_succ_lt_succ hj)

end Context

end QwenHarness
