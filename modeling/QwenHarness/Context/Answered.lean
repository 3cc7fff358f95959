import QwenHarness.Context.Pairs

/-!
# Conversations in which every call is answered

In a conversation that may be sent every call has exactly one result after it, and every result
exactly one call before it. While the calls of a round are made some of them are still owed their
results. `Owes` is what holds then: ids are used once, results come after their calls, and the calls
without a result are exactly those that are owed one. Where none is owed this is the same.
-/

namespace QwenHarness.Context

variable {pending pending' ids : List String} {items more : List ModelInputItem} {id : String}
  {i j : ℕ} {isCall : Bool}

/-- A call with this id, or a result, stands at this place. -/
def MarkAt (items : List ModelInputItem) (i : ℕ) (isCall : Bool) (id : String) : Prop :=
  (items[i]?).bind mark = some (isCall, id)

/-- Every call has exactly one result after it, and every result exactly one call before it. -/
structure Answered (items : List ModelInputItem) : Prop where
  call : ∀ i id, MarkAt items i true id → ∃! j, i < j ∧ MarkAt items j false id
  result : ∀ j id, MarkAt items j false id → ∃! i, i < j ∧ MarkAt items i true id

/-- Every call has exactly one result, after it, but for those that are owed one. -/
structure Owes (pending : List String) (items : List ModelInputItem) : Prop where
  once : ∀ isCall i j id, MarkAt items i isCall id → MarkAt items j isCall id → i = j
  result : ∀ j id, MarkAt items j false id → ∃ i < j, MarkAt items i true id
  call : ∀ i id, MarkAt items i true id → id ∈ pending ∨ ∃ j, MarkAt items j false id
  owed : ∀ id ∈ pending, (∃ i, MarkAt items i true id) ∧ ∀ j, ¬ MarkAt items j false id
  nodup : pending.Nodup

theorem MarkAt.lt_length (h : MarkAt items i isCall id) : i < items.length := by
  by_contra hle
  rw [MarkAt, List.getElem?_eq_none (Nat.not_lt.mp hle)] at h
  cases h

theorem mem_idsOf_of_markAt (h : MarkAt items i isCall id) : id ∈ idsOf isCall items := by
  obtain ⟨item, hi, hmark⟩ := Option.bind_eq_some_iff.mp h
  exact mem_idsOf.mpr ⟨item, List.mem_of_getElem? hi, hmark⟩

theorem markAt_append : MarkAt (items ++ more) i isCall id ↔
    MarkAt items i isCall id ∨ items.length ≤ i ∧ MarkAt more (i - items.length) isCall id := by
  rcases Nat.lt_or_ge i items.length with h | h
  · rw [MarkAt, List.getElem?_append_left h]
    exact ⟨.inl, fun h' ↦ h'.resolve_right fun hle ↦ Nat.not_lt.mpr hle.1 h⟩
  · rw [MarkAt, List.getElem?_append_right h]
    exact ⟨fun h' ↦ .inr ⟨h, h'⟩, fun h' ↦ (h'.resolve_left fun hlt ↦
      Nat.not_lt.mpr h hlt.lt_length).2⟩

theorem markAt_concat {item : ModelInputItem} : MarkAt (items ++ [item]) i isCall id ↔
    MarkAt items i isCall id ∨ i = items.length ∧ mark item = some (isCall, id) := by
  rw [markAt_append]
  refine or_congr_right ⟨fun ⟨hle, h⟩ ↦ ?_, fun ⟨hi, h⟩ ↦ ?_⟩
  · have hlt := h.lt_length
    rw [List.length_singleton] at hlt
    have hi : i = items.length := by omega
    rw [hi, Nat.sub_self] at h
    exact ⟨hi, h⟩
  · rw [hi, Nat.sub_self]
    exact ⟨le_rfl, h⟩

theorem markAt_concat_of_mark {item : ModelInputItem} {isCall' : Bool} {id' : String}
    (h : mark item = some (isCall', id')) : MarkAt (items ++ [item]) i isCall id ↔
      MarkAt items i isCall id ∨ i = items.length ∧ isCall = isCall' ∧ id = id' := by
  rw [markAt_concat, h, Option.some_inj, Prod.mk.injEq]
  exact or_congr_right (and_congr_right fun _ ↦ and_congr eq_comm eq_comm)

/-! ## None is owed a result -/

theorem Owes.answered (h : Owes [] items) : Answered items where
  call i id hi := by
    obtain ⟨j, hj⟩ := (h.call i id hi).resolve_left List.not_mem_nil
    obtain ⟨k, hk, hcall⟩ := h.result j id hj
    rw [h.once true k i id hcall hi] at hk
    exact ⟨j, ⟨hk, hj⟩, fun j' hj' ↦ h.once false j' j id hj'.2 hj⟩
  result j id hj := by
    obtain ⟨i, hi, hcall⟩ := h.result j id hj
    exact ⟨i, ⟨hi, hcall⟩, fun i' hi' ↦ h.once true i' i id hi'.2 hcall⟩

theorem Answered.owes (h : Answered items) : Owes [] items where
  once isCall i j id hi hj := by
    -- Two calls would share the result after the later one, and two results their call.
    have hcalls : ∀ i j, MarkAt items i true id → MarkAt items j true id → ¬ i < j := by
      intro i j hi hj hlt
      obtain ⟨k, ⟨hk, hres⟩, -⟩ := h.call j id hj
      obtain ⟨_, _, honly⟩ := h.result k id hres
      exact hlt.ne ((honly i ⟨hlt.trans hk, hi⟩).trans (honly j ⟨hk, hj⟩).symm)
    have hresults : ∀ i j, MarkAt items i false id → MarkAt items j false id → ¬ i < j := by
      intro i j hi hj hlt
      obtain ⟨k, ⟨hk, hcall⟩, -⟩ := h.result i id hi
      obtain ⟨_, _, honly⟩ := h.call k id hcall
      exact hlt.ne ((honly i ⟨hk, hi⟩).trans (honly j ⟨hk.trans hlt, hj⟩).symm)
    cases isCall with
    | true =>
      exact le_antisymm (Nat.not_lt.mp (hcalls j i hj hi)) (Nat.not_lt.mp (hcalls i j hi hj))
    | false =>
      exact le_antisymm (Nat.not_lt.mp (hresults j i hj hi)) (Nat.not_lt.mp (hresults i j hi hj))
  result j id hj := by
    obtain ⟨i, hi, -⟩ := h.result j id hj
    exact ⟨i, hi.1, hi.2⟩
  call i id hi := by
    obtain ⟨j, hj, -⟩ := h.call i id hi
    exact .inr ⟨j, hj.2⟩
  owed := fun _ hid ↦ absurd hid List.not_mem_nil
  nodup := List.nodup_nil

theorem answered_iff_owes : Answered items ↔ Owes [] items := ⟨Answered.owes, Owes.answered⟩

/-- Nothing was said, so nothing is owed. -/
theorem Owes.nil : Owes [] [] where
  once _ _ _ _ hi := by cases hi
  result _ _ hj := by cases hj
  call _ _ hi := by cases hi
  owed _ hid := by cases hid
  nodup := List.nodup_nil

/-! ## A conversation grows -/

theorem Owes.perm (h : Owes pending items) (hperm : pending.Perm pending') :
    Owes pending' items where
  once := h.once
  result := h.result
  call i id hi := (h.call i id hi).imp_left fun hid ↦ hperm.mem_iff.mp hid
  owed id hid := h.owed id (hperm.mem_iff.mpr hid)
  nodup := hperm.nodup_iff.mp h.nodup

/-- Messages owe nothing. -/
theorem Owes.message (h : Owes pending items) (hmore : ∀ item ∈ more, mark item = none) :
    Owes pending (items ++ more) := by
  have hsame : ∀ i isCall id, MarkAt (items ++ more) i isCall id ↔ MarkAt items i isCall id := by
    intro i isCall id
    rw [markAt_append, or_iff_left]
    rintro ⟨-, hmark⟩
    obtain ⟨item, hi, hmark⟩ := Option.bind_eq_some_iff.mp hmark
    rw [hmore item (List.mem_of_getElem? hi)] at hmark
    cases hmark
  constructor
  · simpa only [hsame] using h.once
  · simpa only [hsame] using h.result
  · simpa only [hsame] using h.call
  · simpa only [hsame] using h.owed
  · exact h.nodup

/-- A call with a new id is owed a result. -/
theorem Owes.ask {name argumentsJson : String} (h : Owes pending items)
    (hnew : id ∉ callIds items) :
    Owes (pending ++ [id]) (items ++ [.functionCall id name argumentsJson]) := by
  have hcall : ∀ i, ¬ MarkAt items i true id := fun i hi ↦ hnew (mem_idsOf_of_markAt hi)
  have hresult : ∀ i, ¬ MarkAt items i false id := fun i hi ↦ by
    obtain ⟨k, -, hk⟩ := h.result i id hi
    exact hcall k hk
  have hadd : ∀ i isCall id', MarkAt (items ++ [.functionCall id name argumentsJson]) i isCall id' ↔
      MarkAt items i isCall id' ∨ i = items.length ∧ isCall = true ∧ id' = id := fun _ _ _ ↦
    markAt_concat_of_mark rfl
  constructor
  · intro isCall i j id' hi hj
    rw [hadd] at hi hj
    rcases hi with hi | ⟨hi, rfl, rfl⟩ <;> rcases hj with hj | ⟨hj, hc, hid⟩
    · exact h.once isCall i j id' hi hj
    · subst hc hid
      exact absurd hi (hcall i)
    · exact absurd hj (hcall j)
    · rw [hi, hj]
  · intro j id' hj
    rw [hadd] at hj
    rcases hj with hj | ⟨-, hc, -⟩
    · obtain ⟨i, hi, hmark⟩ := h.result j id' hj
      exact ⟨i, hi, (hadd i true id').mpr (.inl hmark)⟩
    · cases hc
  · intro i id' hi
    rw [hadd] at hi
    rcases hi with hi | ⟨-, -, rfl⟩
    · refine (h.call i id' hi).imp (List.mem_append_left _) fun ⟨j, hj⟩ ↦ ?_
      exact ⟨j, (hadd j false id').mpr (.inl hj)⟩
    · exact .inl (List.mem_append_right _ (List.mem_singleton_self _))
  · intro id' hid
    rcases List.mem_append.mp hid with hid | hid
    · obtain ⟨⟨i, hi⟩, hnone⟩ := h.owed id' hid
      refine ⟨⟨i, (hadd i true id').mpr (.inl hi)⟩, fun j hj ↦ ?_⟩
      rcases (hadd j false id').mp hj with hj | ⟨-, hc, -⟩
      · exact hnone j hj
      · cases hc
    · obtain rfl := List.mem_singleton.mp hid
      refine ⟨⟨items.length, (hadd _ true id').mpr (.inr ⟨rfl, rfl, rfl⟩)⟩, fun j hj ↦ ?_⟩
      rcases (hadd j false id').mp hj with hj | ⟨-, hc, -⟩
      · exact hresult j hj
      · cases hc
  · refine List.nodup_append.mpr ⟨h.nodup, List.nodup_singleton id, fun a ha b hb heq ↦ ?_⟩
    obtain ⟨⟨i, hi⟩, -⟩ := h.owed a ha
    rw [heq, List.mem_singleton.mp hb] at hi
    exact hcall i hi

/-- The calls of a round. -/
theorem Owes.askAll {calls : List ModelInputItem} {pending : List String}
    (h : Owes pending items) (hcalls : ∀ item ∈ calls, ∃ id name argumentsJson,
      item = .functionCall id name argumentsJson)
    (hnodup : (callIds calls).Nodup) (hnew : ∀ id ∈ callIds calls, id ∉ callIds items) :
    Owes (pending ++ callIds calls) (items ++ calls) := by
  induction calls using List.reverseRecOn with
  | nil =>
    have hnone : callIds [] = [] := rfl
    rwa [hnone, List.append_nil, List.append_nil]
  | append_singleton calls item ih =>
    obtain ⟨hfront, hitem⟩ := List.forall_mem_append.mp hcalls
    obtain ⟨id, name, argumentsJson, rfl⟩ := hitem item (List.mem_singleton_self _)
    have hids : callIds (calls ++ [.functionCall id name argumentsJson]) = callIds calls ++ [id] :=
      idsOf_append true calls _
    rw [hids] at hnodup hnew ⊢
    obtain ⟨hnodup, -, hdisjoint⟩ := List.nodup_append.mp hnodup
    rw [← List.append_assoc, ← List.append_assoc]
    refine (ih hfront hnodup fun id hid ↦ hnew id (List.mem_append_left _ hid)).ask ?_
    rw [callIds, idsOf_append, List.mem_append, not_or]
    exact ⟨hnew id (List.mem_append_right _ (List.mem_singleton_self id)), fun hid ↦
      hdisjoint id hid id (List.mem_singleton_self id) rfl⟩

/-- A result that was owed. -/
theorem Owes.answer {name output : String} (h : Owes (id :: pending) items) :
    Owes pending (items ++ [.functionOutput id name output]) := by
  obtain ⟨⟨k, hk⟩, hnone⟩ := h.owed id List.mem_cons_self
  obtain ⟨hid, hnodup⟩ := List.nodup_cons.mp h.nodup
  have hadd : ∀ i isCall id', MarkAt (items ++ [.functionOutput id name output]) i isCall id' ↔
      MarkAt items i isCall id' ∨ i = items.length ∧ isCall = false ∧ id' = id := fun _ _ _ ↦
    markAt_concat_of_mark rfl
  constructor
  · intro isCall i j id' hi hj
    rw [hadd] at hi hj
    rcases hi with hi | ⟨hi, rfl, rfl⟩ <;> rcases hj with hj | ⟨hj, hc, hid'⟩
    · exact h.once isCall i j id' hi hj
    · subst hc hid'
      exact absurd hi (hnone i)
    · exact absurd hj (hnone j)
    · rw [hi, hj]
  · intro j id' hj
    rw [hadd] at hj
    rcases hj with hj | ⟨hj, -, rfl⟩
    · obtain ⟨i, hi, hmark⟩ := h.result j id' hj
      exact ⟨i, hi, (hadd i true id').mpr (.inl hmark)⟩
    · exact ⟨k, hj ▸ hk.lt_length, (hadd k true id').mpr (.inl hk)⟩
  · intro i id' hi
    rw [hadd] at hi
    rcases hi with hi | ⟨-, hc, -⟩
    · rcases h.call i id' hi with hmem | ⟨j, hj⟩
      · rcases List.mem_cons.mp hmem with rfl | hmem
        · exact .inr ⟨items.length, (hadd _ false id').mpr (.inr ⟨rfl, rfl, rfl⟩)⟩
        · exact .inl hmem
      · exact .inr ⟨j, (hadd j false id').mpr (.inl hj)⟩
    · cases hc
  · intro id' hid'
    obtain ⟨⟨i, hi⟩, hno⟩ := h.owed id' (List.mem_cons_of_mem _ hid')
    refine ⟨⟨i, (hadd i true id').mpr (.inl hi)⟩, fun j hj ↦ ?_⟩
    rcases (hadd j false id').mp hj with hj | ⟨-, -, rfl⟩
    · exact hno j hj
    · exact hid hid'
  · exact hnodup

end QwenHarness.Context
