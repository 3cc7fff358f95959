import Mathlib.Algebra.GroupWithZero.Nat
import Mathlib.Algebra.BigOperators.Group.List.Basic
import QwenHarness.Table.First

/-!
# Items sent in pieces

Several items are sent over one stream, each in parts of its text and perhaps with the whole of it
at the end. One accumulator takes all of them: a part is added, and a whole replaces what there is.

What stands before a whole is then gone. So the accumulator ends with the texts of all items only if
nothing that counts stands before a whole, and if what counts comes in the order of the items:
`text_eq_byItem_iff`.
-/

namespace Sent

/-- A part of an item's text, or the whole of it. -/
inductive Piece (κ α : Type) where
  | delta (id : κ) (part : List α)
  | done (id : κ) (whole : List α)
deriving DecidableEq, Repr

variable {κ α : Type}

namespace Piece

def id : Piece κ α → κ
  | delta id _ => id
  | done id _ => id

def text : Piece κ α → List α
  | delta _ part => part
  | done _ whole => whole

def isDone : Piece κ α → Bool
  | delta _ _ => false
  | done _ _ => true

end Piece

/-- The accumulator of all items. -/
def accumulate (text : List α) : Piece κ α → List α
  | .delta _ part => text ++ part
  | .done _ whole => whole

variable [DecidableEq κ]

/-- The pieces of an item. -/
def ofItem (pieces : List (Piece κ α)) (id : κ) : List (Piece κ α) :=
  pieces.filter fun p ↦ decide (p.id = id)

def isWholeOf (id : κ) (p : Piece κ α) : Bool := p.isDone && decide (p.id = id)

/-- The text of an item: the whole where it was sent, and its parts otherwise. -/
def itemText (pieces : List (Piece κ α)) (id : κ) : List α :=
  match pieces.find? (isWholeOf id) with
  | some p => p.text
  | none => (ofItem pieces id).flatMap Piece.text

/-- The items, in the order in which they first come. -/
def items (pieces : List (Piece κ α)) : List κ :=
  (Keyed.firsts Piece.id [] pieces).map Piece.id

/-- The texts of the items, one after the other. -/
def byItem (pieces : List (Piece κ α)) : List α := (items pieces).flatMap (itemText pieces)

/-- The whole of an item is its last piece. -/
def WellSent (pieces : List (Piece κ α)) : Prop :=
  ∀ before id whole after, pieces = before ++ .done id whole :: after → ∀ p ∈ after, p.id ≠ id

/-- What a piece is of its item's text: a whole is all of it, and a part counts where there is no
whole. -/
def counted (pieces : List (Piece κ α)) (p : Piece κ α) : List α :=
  if p.isDone || !pieces.any (isWholeOf p.id) then p.text else []

/-- Nothing that counts stands before a whole. -/
def LosesNothing (pieces : List (Piece κ α)) : Prop :=
  ∀ before id whole after, pieces = before ++ .done id whole :: after →
    ∀ p ∈ before, counted pieces p = []

/-- What counts is the same text in the order it is sent and in the order of the items. -/
def IsInOrder (pieces : List (Piece κ α)) : Prop :=
  pieces.flatMap (counted pieces) = byItem pieces

/-- The pieces of an item come one after the other. -/
def IsSequential (pieces : List (Piece κ α)) : Prop :=
  (items pieces).flatMap (ofItem pieces) = pieces

variable {pieces before after : List (Piece κ α)} {p : Piece κ α} {id : κ} {whole : List α}

/-! ## Items and their pieces -/

omit [DecidableEq κ] in
theorem wellSent_nil : WellSent ([] : List (Piece κ α)) :=
  fun _ _ _ _ heq ↦ absurd heq.symm (List.append_ne_nil_of_right_ne_nil _ (List.cons_ne_nil _ _))

omit [DecidableEq κ] in
theorem wellSent_cons_iff : WellSent (p :: pieces) ↔
    (p.isDone = true → ∀ q ∈ pieces, q.id ≠ p.id) ∧ WellSent pieces := by
  constructor
  · refine fun h ↦ ⟨fun hp ↦ ?_, fun before id whole after heq ↦ ?_⟩
    · rcases p with ⟨id, part⟩ | ⟨id, whole⟩
      · exact absurd hp Bool.false_ne_true
      · exact h [] id whole pieces rfl
    · exact h (p :: before) id whole after (by rw [heq]; rfl)
  · rintro ⟨hp, h⟩ before id whole after heq
    rcases before with - | ⟨q, before⟩
    · obtain ⟨rfl, rfl⟩ := List.cons.inj heq
      exact hp rfl
    · obtain ⟨-, rfl⟩ := List.cons.inj heq
      exact h before id whole after rfl

theorem exists_of_isWholeOf (h : isWholeOf id p = true) : ∃ whole, p = .done id whole := by
  rcases p with ⟨id', part⟩ | ⟨id', whole⟩
  · exact absurd h Bool.false_ne_true
  · exact ⟨whole, by rw [← of_decide_eq_true h]; rfl⟩

theorem ofItem_cons (p : Piece κ α) (pieces : List (Piece κ α)) (id : κ) :
    ofItem (p :: pieces) id = if p.id = id then p :: ofItem pieces id else ofItem pieces id := by
  rw [ofItem, List.filter_cons]
  simp only [decide_eq_true_eq]
  rfl

theorem ofItem_append (before after : List (Piece κ α)) (id : κ) :
    ofItem (before ++ after) id = ofItem before id ++ ofItem after id := List.filter_append ..

theorem mem_ofItem : p ∈ ofItem pieces id ↔ p ∈ pieces ∧ p.id = id := by
  rw [ofItem, List.mem_filter, decide_eq_true_iff]

/-- The text of an item is what its pieces count. -/
theorem itemText_eq (h : WellSent pieces) (id : κ) :
    itemText pieces id = (ofItem pieces id).flatMap (counted pieces) := by
  rw [itemText]
  rcases hfind : pieces.find? (isWholeOf id) with - | q
  · have hany : pieces.any (isWholeOf id) = false :=
      List.any_eq_false.mpr (List.find?_eq_none.mp hfind)
    refine List.flatMap_congr fun p hp ↦ ?_
    rw [counted, (mem_ofItem.mp hp).2, hany, Bool.not_false, Bool.or_true, if_pos rfl]
  · obtain ⟨hq, before, after, rfl, hbefore⟩ := List.find?_eq_some_iff_append.mp hfind
    obtain ⟨whole, rfl⟩ := exists_of_isWholeOf hq
    have hafter : ofItem after id = [] :=
      List.eq_nil_iff_forall_not_mem.mpr fun p hp ↦
        h before id whole after rfl p (mem_ofItem.mp hp).1 (mem_ofItem.mp hp).2
    have hany : (before ++ .done id whole :: after).any (isWholeOf id) = true := by
      rw [List.any_append, List.any_cons, hq, Bool.true_or, Bool.or_true]
    have hnone : (ofItem before id).flatMap
        (counted (before ++ .done id whole :: after)) = [] := by
      rw [List.flatMap_eq_nil_iff]
      intro p hp
      obtain ⟨hmem, rfl⟩ := mem_ofItem.mp hp
      have hdone := hbefore p hmem
      rw [isWholeOf, decide_eq_true rfl, Bool.and_true, Bool.not_eq_true'] at hdone
      rw [counted, hdone, hany]
      rfl
    have hsplit : ofItem (before ++ .done id whole :: after) id =
        ofItem before id ++ [.done id whole] := by
      have hid : (Piece.done id whole : Piece κ α).id = id := rfl
      rw [ofItem_append, ofItem_cons, if_pos hid, hafter]
    change whole = _
    rw [hsplit, List.flatMap_append, hnone, List.flatMap_singleton]
    rfl

theorem sum_ite_id {ids : List κ} (hids : ids.Nodup) {k : κ} (hk : k ∈ ids) (n : ℕ) :
    (ids.map fun id ↦ if k = id then n else 0).sum = n := by
  rw [List.sum_map_eq_nsmul_single k _ fun id hne _ ↦ if_neg hne.symm,
    List.count_eq_one_of_mem hids hk, one_nsmul, if_pos rfl]

/-- Every piece is of one of the items. -/
theorem sum_ofItem {ids : List κ} (hids : ids.Nodup) (f : Piece κ α → ℕ)
    (h : ∀ p ∈ pieces, p.id ∈ ids) :
    (ids.map fun id ↦ ((ofItem pieces id).map f).sum).sum = (pieces.map f).sum := by
  induction pieces with
  | nil =>
    refine List.sum_eq_zero fun n hn ↦ ?_
    obtain ⟨id, -, rfl⟩ := List.mem_map.mp hn
    rfl
  | cons p pieces ih =>
    rw [List.forall_mem_cons] at h
    have hcons : ∀ id, ((ofItem (p :: pieces) id).map f).sum =
        (if p.id = id then f p else 0) + ((ofItem pieces id).map f).sum := by
      intro id
      rw [ofItem_cons]
      by_cases hid : p.id = id
      · rw [if_pos hid, if_pos hid, List.map_cons, List.sum_cons]
      · rw [if_neg hid, if_neg hid, Nat.zero_add]
    rw [List.map_congr_left fun id _ ↦ hcons id, List.sum_map_add, sum_ite_id hids h.1, ih h.2,
      List.map_cons, List.sum_cons]

theorem nodup_items (pieces : List (Piece κ α)) : (items pieces).Nodup :=
  Keyed.nodup_map_firsts [] pieces

theorem id_mem_items (h : p ∈ pieces) : p.id ∈ items pieces := by
  have hfirst : ∃ q ∈ Keyed.firsts Piece.id [] pieces, q.id = p.id :=
    Keyed.exists_mem_firsts h List.not_mem_nil
  obtain ⟨q, hq, hid⟩ := hfirst
  exact List.mem_map.mpr ⟨q, hq, hid⟩

/-- Grouped by items, nothing is lost. -/
theorem length_byItem (h : WellSent pieces) :
    (byItem pieces).length = (pieces.flatMap (counted pieces)).length := by
  have hitem : ∀ id, (itemText pieces id).length =
      ((ofItem pieces id).map fun p ↦ (counted pieces p).length).sum :=
    fun id ↦ by rw [itemText_eq h, List.length_flatMap]
  rw [byItem, List.length_flatMap, List.length_flatMap,
    ← sum_ofItem (nodup_items pieces) (fun p ↦ (counted pieces p).length)
      fun p hp ↦ id_mem_items hp]
  exact congrArg List.sum (List.map_congr_left fun id _ ↦ hitem id)

/-- Where the pieces of an item come one after the other, all that counts is in order. -/
theorem IsSequential.isInOrder (h : WellSent pieces) (hseq : IsSequential pieces) :
    IsInOrder pieces := by
  rw [IsInOrder, byItem, List.flatMap_congr fun id _ ↦ itemText_eq h id, ← List.flatMap_assoc]
  exact congrArg (List.flatMap (counted pieces)) hseq.symm

/-! ## The accumulator -/

omit [DecidableEq κ] in
theorem foldl_accumulate_of_not_done (h : ∀ p ∈ after, p.isDone = false) (text : List α) :
    after.foldl accumulate text = text ++ after.flatMap Piece.text := by
  induction after generalizing text with
  | nil => exact (List.append_nil _).symm
  | cons p after ih =>
    rw [List.forall_mem_cons] at h
    rcases p with ⟨id, part⟩ | ⟨id, whole⟩
    · rw [List.foldl_cons, ih h.2, accumulate, List.flatMap_cons, List.append_assoc]
      rfl
    · exact absurd h.1.symm Bool.false_ne_true

omit [DecidableEq κ] in
/-- There is no whole, or there is a last one. -/
theorem last_done (pieces : List (Piece κ α)) : (∀ p ∈ pieces, p.isDone = false) ∨
    ∃ before id whole after, pieces = before ++ .done id whole :: after ∧
      ∀ p ∈ after, p.isDone = false := by
  induction pieces with
  | nil => exact .inl fun p hp ↦ absurd hp List.not_mem_nil
  | cons p pieces ih =>
    rcases ih with hnone | ⟨before, id, whole, after, rfl, hafter⟩
    · rcases p with ⟨id, part⟩ | ⟨id, whole⟩
      · exact .inl (List.forall_mem_cons.mpr ⟨rfl, hnone⟩)
      · exact .inr ⟨[], id, whole, pieces, rfl, hnone⟩
    · exact .inr ⟨p :: before, id, whole, after, rfl, hafter⟩

/-- Behind the last whole every piece counts. -/
theorem counted_after (h : WellSent (before ++ .done id whole :: after))
    (hafter : ∀ p ∈ after, p.isDone = false) (hp : p ∈ after) :
    counted (before ++ .done id whole :: after) p = p.text := by
  have hany : (before ++ .done id whole :: after).any (isWholeOf p.id) = false := by
    rw [List.any_eq_false]
    intro q hq hwhole
    obtain ⟨whole', rfl⟩ := exists_of_isWholeOf hwhole
    rcases List.mem_append.mp hq with hq | hq
    · obtain ⟨before', rest, rfl⟩ := List.append_of_mem hq
      refine h before' p.id whole' (rest ++ .done id whole :: after) ?_ p ?_ rfl
      · rw [List.append_assoc, List.cons_append]
      · exact List.mem_append_right _ (List.mem_cons_of_mem _ hp)
    · rcases List.mem_cons.mp hq with heq | hq
      · exact h before id whole after rfl p hp (congrArg Piece.id heq)
      · exact absurd (hafter _ hq).symm Bool.false_ne_true
  rw [counted, hany, Bool.not_false, Bool.or_true, if_pos rfl]

theorem counted_of_not_done (h : ∀ p ∈ pieces, p.isDone = false) (p : Piece κ α) :
    counted pieces p = p.text := by
  have hany : pieces.any (isWholeOf p.id) = false := by
    rw [List.any_eq_false]
    intro q hq hwhole
    rw [isWholeOf, h q hq] at hwhole
    exact absurd hwhole Bool.false_ne_true
  rw [counted, hany, Bool.not_false, Bool.or_true, if_pos rfl]

/-- All that stands before some whole stands before the last one. -/
theorem losesNothing_iff (hafter : ∀ p ∈ after, p.isDone = false) :
    LosesNothing (before ++ .done id whole :: after) ↔
      before.flatMap (counted (before ++ .done id whole :: after)) = [] := by
  rw [List.flatMap_eq_nil_iff]
  constructor
  · intro h
    exact h before id whole after rfl
  · intro h before' id' whole' after' heq p hp
    rcases List.append_eq_append_iff.mp heq with ⟨rest, hrest, hdone⟩ | ⟨rest, hrest, -⟩
    · rcases rest with - | ⟨q, rest⟩
      · rw [List.append_nil] at hrest
        exact h p (hrest ▸ hp)
      · obtain ⟨-, htail⟩ := List.cons.inj hdone
        have hmem : Piece.done id' whole' ∈ after := by
          rw [htail]
          exact List.mem_append_right _ List.mem_cons_self
        exact absurd (hafter _ hmem).symm Bool.false_ne_true
    · exact h p (hrest ▸ List.mem_append_left _ hp)

/-- **The accumulator.** It ends with the texts of all items, in their order, if and only if
nothing that counts stands before a whole and what counts comes in order. -/
theorem text_eq_byItem_iff (h : WellSent pieces) :
    pieces.foldl accumulate [] = byItem pieces ↔ LosesNothing pieces ∧ IsInOrder pieces := by
  rcases last_done pieces with hnone | ⟨before, id, whole, after, rfl, hafter⟩
  · have hloses : LosesNothing pieces := by
      rintro before id whole after rfl
      have hdone := hnone _ (List.mem_append_right before List.mem_cons_self)
      exact absurd hdone.symm Bool.false_ne_true
    rw [and_iff_right hloses, IsInOrder, foldl_accumulate_of_not_done hnone, List.nil_append,
      List.flatMap_congr fun p _ ↦ counted_of_not_done hnone p]
  · have htext : (before ++ .done id whole :: after).foldl accumulate [] =
        whole ++ after.flatMap Piece.text := by
      rw [List.foldl_append, List.foldl_cons, accumulate, foldl_accumulate_of_not_done hafter]
    have hcounted : (before ++ .done id whole :: after).flatMap
        (counted (before ++ .done id whole :: after)) =
        before.flatMap (counted (before ++ .done id whole :: after)) ++
          (whole ++ after.flatMap Piece.text) := by
      rw [List.flatMap_append, List.flatMap_cons,
        List.flatMap_congr fun p hp ↦ counted_after h hafter hp]
      rfl
    have hlength := length_byItem h
    rw [hcounted, List.length_append, ← htext] at hlength
    rw [losesNothing_iff hafter, IsInOrder, hcounted, ← htext]
    constructor
    · intro heq
      rw [heq] at hlength
      have hnil : before.flatMap (counted (before ++ .done id whole :: after)) = [] :=
        List.eq_nil_of_length_eq_zero (by omega)
      exact ⟨hnil, by rw [hnil, heq, List.nil_append]⟩
    · rintro ⟨hnil, horder⟩
      rwa [hnil, List.nil_append] at horder

end Sent
