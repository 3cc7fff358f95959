import QwenHarness.Hooks.Fold
import Mathlib.Data.List.Sort

/-!
# What a run of the hooks decides

Every matching handler has one record, in the order in which the handlers come: by priority, and as
they were registered where that is equal. The decision is the most restrictive of the one handed in
and of what the handlers that ran restricted it to. Since a handler that blocks also denies, those
that a block skips could not have changed it, and the order of registration is of no account.
-/

namespace QwenHarness.Hooks

open Policy FoldedHookResult

/-! ## The order of the handlers -/

section Stable

variable {α : Type} {le : α → α → Prop} [DecidableRel le] {l : List α} {a b : α}

theorem not_sublist_swap (hl : l.Nodup) (h : [a, b].Sublist l) : ¬ [b, a].Sublist l := by
  induction l with
  | nil => cases h
  | cons x l ih =>
    obtain ⟨hx, hl⟩ := List.nodup_cons.mp hl
    have hmem : ∀ {c d : α}, [c, d].Sublist l → c ∈ l ∧ d ∈ l := fun h ↦
      ⟨h.subset List.mem_cons_self, h.subset (List.mem_cons_of_mem _ List.mem_cons_self)⟩
    intro h'
    rcases List.sublist_cons_iff.mp h with hin | ⟨r, hr, hsub⟩
    · rcases List.sublist_cons_iff.mp h' with hin' | ⟨r', hr', hsub'⟩
      · exact ih hl hin hin'
      · obtain ⟨rfl, rfl⟩ := List.cons.inj hr'
        exact hx (hmem hin).2
    · obtain ⟨rfl, rfl⟩ := List.cons.inj hr
      rcases List.sublist_cons_iff.mp h' with hin' | ⟨r', hr', hsub'⟩
      · exact hx (hmem hin').2
      · obtain ⟨rfl, rfl⟩ := List.cons.inj hr'
        exact hx (List.singleton_sublist.mp hsub)

theorem sublist_or_swap (ha : a ∈ l) (hb : b ∈ l) (hne : a ≠ b) :
    [a, b].Sublist l ∨ [b, a].Sublist l := by
  induction l with
  | nil => cases ha
  | cons x l ih =>
    rcases List.mem_cons.mp ha with rfl | hal
    · have hin := (List.mem_cons.mp hb).resolve_left hne.symm
      exact .inl ((List.singleton_sublist.mpr hin).cons_cons a)
    · rcases List.mem_cons.mp hb with rfl | hbl
      · exact .inr ((List.singleton_sublist.mpr hal).cons_cons b)
      · exact (ih hal hbl).imp (List.Sublist.cons x) (List.Sublist.cons x)

/-- Entries of equal standing come out of the sort as they went in. -/
theorem sublist_of_sublist_insertionSort (hl : l.Nodup)
    (h : [a, b].Sublist (l.insertionSort le)) (hba : le b a) : [a, b].Sublist l := by
  have hsorted : (l.insertionSort le).Nodup := (List.perm_insertionSort le l).nodup_iff.mpr hl
  have hne : a ≠ b := by
    rintro rfl
    exact List.not_nodup_pair a (hsorted.sublist h)
  have hmem := (List.perm_insertionSort le l).subset
  have ha := hmem (h.subset List.mem_cons_self)
  have hb := hmem (h.subset (List.mem_cons_of_mem _ List.mem_cons_self))
  refine (sublist_or_swap ha hb hne).resolve_right fun hswap ↦ ?_
  exact not_sublist_swap hsorted h (List.pair_sublist_insertionSort hba hswap)

end Stable

/-- By priority, and as they were registered where that is equal. -/
def InOrder (registered handlers : List HookRegistration) : Prop :=
  handlers.Pairwise fun a b ↦ a.priority.getD 0 < b.priority.getD 0 ∨
    a.priority.getD 0 = b.priority.getD 0 ∧ [a, b].Sublist registered

theorem HookRegistry.nodup_rows (registry : HookRegistry) : registry.rows.Nodup :=
  registry.nodup.of_map _

/-- A registration fires for an invocation. -/
def HookRegistration.fires (invocation : HookInvocation) (r : HookRegistration) : Bool :=
  decide (r.event = invocation.event) && matcherApplies r.matcher invocation

section Matching

variable (registry : HookRegistry) (invocation : HookInvocation)

theorem perm_matching :
    (registry.matching invocation).Perm (registry.rows.filter (·.fires invocation)) :=
  List.perm_insertionSort _ _

theorem inOrder_matching : InOrder registry.rows (registry.matching invocation) := by
  let le (a b : HookRegistration) : Prop := a.priority.getD 0 ≤ b.priority.getD 0
  have : Std.Total le := ⟨fun a b ↦ le_total (a.priority.getD 0) (b.priority.getD 0)⟩
  have : IsTrans HookRegistration le := ⟨fun _ _ _ ↦ le_trans⟩
  have hsorted := List.pairwise_insertionSort le (registry.rows.filter (·.fires invocation))
  refine List.pairwise_iff_forall_sublist.mpr fun {a b} hsub ↦ ?_
  rcases (List.pairwise_iff_forall_sublist.mp hsorted hsub).lt_or_eq with hlt | heq
  · exact .inl hlt
  · have hbefore := sublist_of_sublist_insertionSort (registry.nodup_rows.filter _) hsub heq.ge
    exact .inr ⟨heq, hbefore.trans List.filter_sublist⟩

/-- Another order of registration leaves the same handlers. -/
theorem matching_perm {registry registry' : HookRegistry}
    (h : registry.rows.Perm registry'.rows) :
    (registry.matching invocation).Perm (registry'.matching invocation) :=
  (perm_matching registry invocation).trans
    ((h.filter _).trans (perm_matching registry' invocation).symm)

end Matching

/-! ## One run -/

/-- What the handlers that ran restricted the decision to. -/
def restrictions (event : HookEvent) (ran : Ran) : List DecisionOutcome :=
  ran.filterMap fun p ↦ p.2.restriction event

/-- What a run that was not refused ends with. -/
structure Folds {σ : Type} (registry : HookRegistry) (invoke : Invoke σ)
    (invocation : HookInvocation) (base : DecisionOutcome) (s s' : σ) (result : FoldedHookResult)
    (ran : Ran) (skipped : List HookRegistration) : Prop where
  /-- Those that match are those that ran and those that were skipped. -/
  matching : registry.matching invocation = ran.map Prod.fst ++ skipped
  answered : Answered invoke invocation ran s s'
  stops : StopsAtBlock invocation.event ran skipped
  decision : IsMostRestrictive result.decision (base :: restrictions invocation.event ran)
  /-- One record for each handler that matches, in their order. -/
  audit : result.audit.map HookInvocationRecord.brief =
    (ran.map fun p ↦ (p.1.id, p.1.form, p.2.auditOutcome)) ++
      skipped.map fun r ↦ (r.id, r.form, .skipped)
  blocked : result.blocked = ran.any fun p ↦ p.2.blocks invocation.event

section Run

variable {σ : Type} {registry registry' : HookRegistry} {invoke : Invoke σ}
  {invocation : HookInvocation} {s : σ}

theorem exists_folds (registry : HookRegistry) (invoke : Invoke σ) (invocation : HookInvocation)
    (s : σ) : ∃ ran skipped, Folds registry invoke invocation
      (invocation.currentDecision.getD .allow) s (runEngine registry invoke invocation s).2
      (runEngine registry invoke invocation s).1 ran skipped := by
  obtain ⟨ran, skipped, s', hsplit, hran, hstops, hrun⟩ :=
    @exists_ran _ invoke invocation (start (invocation.currentDecision.getD .allow)) rfl
      (registry.matching invocation) s
  refine ⟨ran, skipped, hsplit, ?_, hstops, ?_, ?_, ?_⟩ <;> rw [runEngine, hrun]
  · exact hran
  · rw [decision_skipAll, decision_takeIn]
    exact isMostRestrictive_foldl _ _
  · rw [audit_skipAll, audit_takeIn]
    rfl
  · rw [blocked_skipAll, blocked_takeIn]
    exact Bool.false_or _

variable {base : DecisionOutcome} {s' : σ} {result : FoldedHookResult} {ran : Ran}
  {skipped : List HookRegistration}

theorem Folds.le_decision (h : Folds registry invoke invocation base s s' result ran skipped) :
    restrictiveness base ≤ restrictiveness result.decision :=
  h.decision.2 base List.mem_cons_self

theorem Folds.blocked_iff (h : Folds registry invoke invocation base s s' result ran skipped)
    (hevent : isPostToolEvent invocation.event = false) :
    result.blocked = true ↔ ∃ p ∈ ran, p.2.IsBlock := by
  rw [h.blocked, List.any_eq_true]
  exact exists_congr fun p ↦ and_congr_right fun _ ↦
    HandlerResult.blocks_iff.trans (and_iff_left hevent)

/-! ## The order of registration -/

variable {answer : HookRegistration → HandlerResult}

theorem Answered.eq_answer (hanswer : ∀ r s, (invoke r invocation s).1 = answer r)
    (h : Answered invoke invocation ran s s') : ∀ p ∈ ran, p.2 = answer p.1 := by
  induction ran generalizing s with
  | nil => exact fun p hp ↦ absurd hp List.not_mem_nil
  | cons p ran ih =>
    obtain ⟨hp, hrest⟩ := h
    exact List.forall_mem_cons.mpr ⟨hp.symm.trans (hanswer p.1 s), ih hrest⟩

/-- Where nothing is skipped, the handlers that match are those that ran. -/
theorem Folds.exists_matching_iff (hanswer : ∀ r s, (invoke r invocation s).1 = answer r)
    (h : Folds registry invoke invocation base s s' result ran []) (P : HandlerResult → Prop) :
    (∃ r ∈ registry.matching invocation, P (answer r)) ↔ ∃ p ∈ ran, P p.2 := by
  have heq := h.answered.eq_answer hanswer
  rw [h.matching, List.append_nil]
  constructor
  · rintro ⟨r, hr, hP⟩
    obtain ⟨p, hp, rfl⟩ := List.mem_map.mp hr
    exact ⟨p, hp, (heq p hp).symm ▸ hP⟩
  · rintro ⟨p, hp, hP⟩
    exact ⟨p.1, List.mem_map_of_mem hp, heq p hp ▸ hP⟩

/-- Whether the action is blocked, read off from the handlers that match. -/
theorem Folds.blocked_iff_matching (hanswer : ∀ r s, (invoke r invocation s).1 = answer r)
    (h : Folds registry invoke invocation base s s' result ran skipped) : result.blocked = true ↔
      ∃ r ∈ registry.matching invocation, (answer r).blocks invocation.event := by
  rw [h.blocked, List.any_eq_true]
  rcases h.stops with ⟨rfl, -⟩ | ⟨before, p, hlast, hp, -⟩
  · exact (h.exists_matching_iff hanswer fun a ↦ a.blocks invocation.event).symm
  · have hran : p ∈ ran := hlast ▸ List.mem_append_right _ (List.mem_singleton_self p)
    refine iff_of_true ⟨p, hran, hp⟩ ⟨p.1, ?_, h.answered.eq_answer hanswer p hran ▸ hp⟩
    rw [h.matching]
    exact List.mem_append_left _ (List.mem_map_of_mem hran)

theorem Folds.decision_of_blocked
    (h : Folds registry invoke invocation base s s' result ran skipped)
    (hblocked : result.blocked = true) : result.decision = .deny := by
  rw [h.blocked, List.any_eq_true] at hblocked
  obtain ⟨p, hp, hblocks⟩ := hblocked
  have hdeny : DecisionOutcome.deny ∈ restrictions invocation.event ran :=
    List.mem_filterMap.mpr ⟨p, hp, HandlerResult.restriction_of_blocks hblocks⟩
  have hle := h.decision.2 .deny (List.mem_cons_of_mem _ hdeny)
  revert hle
  cases result.decision <;> decide

theorem Folds.skipped_of_not_blocked
    (h : Folds registry invoke invocation base s s' result ran skipped)
    (hblocked : result.blocked = false) : skipped = [] := by
  rcases h.stops with ⟨hnil, -⟩ | ⟨before, p, rfl, hp, -⟩
  · exact hnil
  · rw [h.blocked, List.any_eq_false] at hblocked
    exact absurd hp (hblocked p (by simp))

variable {z z' : σ} {folded : FoldedHookResult} {others : Ran} {left : List HookRegistration}

/-- **The order of registration is of no account** to the block and to the decision. A handler that
blocks denies as well, so what it keeps from running could not have mattered. -/
theorem Folds.congr (hanswer : ∀ r s, (invoke r invocation s).1 = answer r)
    (hperm : registry.rows.Perm registry'.rows)
    (h : Folds registry invoke invocation base s s' result ran skipped)
    (h' : Folds registry' invoke invocation base z z' folded others left) :
    result.blocked = folded.blocked ∧ result.decision = folded.decision := by
  have hmatching := matching_perm invocation hperm
  have hblocked : result.blocked = folded.blocked := by
    rw [Bool.eq_iff_iff, h.blocked_iff_matching hanswer, h'.blocked_iff_matching hanswer]
    exact exists_congr fun r ↦ and_congr_left fun _ ↦ hmatching.mem_iff
  refine ⟨hblocked, ?_⟩
  rcases hb : result.blocked with - | -
  · obtain rfl := h.skipped_of_not_blocked hb
    obtain rfl := h'.skipped_of_not_blocked (hblocked ▸ hb)
    refine h.decision.eq h'.decision (fun e ↦ ?_) fun e he ↦ ?_
    · rw [restrictions, restrictions, List.mem_filterMap, List.mem_filterMap,
        ← h.exists_matching_iff hanswer fun a ↦ a.restriction invocation.event = some e,
        ← h'.exists_matching_iff hanswer fun a ↦ a.restriction invocation.event = some e]
      exact exists_congr fun r ↦ and_congr_left fun _ ↦ hmatching.mem_iff
    · obtain ⟨p, -, hp⟩ := List.mem_filterMap.mp he
      exact HandlerResult.restriction_ne_zero hp
  · rw [h.decision_of_blocked hb, h'.decision_of_blocked (hblocked ▸ hb)]

end Run

/-! ## The runs of an engine -/

/-- The engine handles a stop already, and is asked for another. -/
def Refused (stopInProgress : Bool) (invocation : HookInvocation) : Prop :=
  invocation.event = .stop ∧ stopInProgress = true

theorem HookEngine.run_of_refused {σ : Type} {stopInProgress : Bool} {invocation : HookInvocation}
    (h : Refused stopInProgress invocation) (registry : HookRegistry) (invoke : Invoke σ) (s : σ) :
    HookEngine.run stopInProgress registry invoke invocation s =
      (refusedStopResult (invocation.currentDecision.getD .allow), s) := if_pos h

theorem HookEngine.run_of_not_refused {σ : Type} {stopInProgress : Bool}
    {invocation : HookInvocation} (h : ¬ Refused stopInProgress invocation)
    (registry : HookRegistry) (invoke : Invoke σ) (s : σ) :
    HookEngine.run stopInProgress registry invoke invocation s =
      runEngine registry invoke invocation s := if_neg h

/-- What a run is: the decision and the block follow from the handlers that ran. Unless the run is
refused, these are the first of those that match, up to the first that blocks; the others are
skipped, and every one of them has one record. -/
structure Runs {σ : Type} (stopInProgress : Bool) (registry : HookRegistry) (invoke : Invoke σ)
    (invocation : HookInvocation) (s s' : σ) (result : FoldedHookResult) (ran : Ran)
    (skipped : List HookRegistration) : Prop where
  answered : Answered invoke invocation ran s s'
  decision : IsMostRestrictive result.decision
    (invocation.currentDecision.getD .allow :: restrictions invocation.event ran)
  no_looser : restrictiveness (invocation.currentDecision.getD .allow) ≤
    restrictiveness result.decision
  blocked : isPostToolEvent invocation.event = false →
    (result.blocked = true ↔ ∃ p ∈ ran, p.2.IsBlock)
  matching : ¬ Refused stopInProgress invocation →
    registry.matching invocation = ran.map Prod.fst ++ skipped
  stops : StopsAtBlock invocation.event ran skipped
  audit : ¬ Refused stopInProgress invocation →
    result.audit.map HookInvocationRecord.brief =
      (ran.map fun p ↦ (p.1.id, p.1.form, p.2.auditOutcome)) ++
        skipped.map fun r ↦ (r.id, r.form, .skipped)
  refused : Refused stopInProgress invocation →
    ran = [] ∧ result = refusedStopResult (invocation.currentDecision.getD .allow)

theorem exists_runs {σ : Type} (stopInProgress : Bool) (registry : HookRegistry)
    (invoke : Invoke σ) (invocation : HookInvocation) (s : σ) : ∃ ran skipped,
      Runs stopInProgress registry invoke invocation s
        (HookEngine.run stopInProgress registry invoke invocation s).2
        (HookEngine.run stopInProgress registry invoke invocation s).1 ran skipped := by
  by_cases hrefused : Refused stopInProgress invocation
  · rw [HookEngine.run_of_refused hrefused]
    refine ⟨[], [], ⟨rfl, ⟨List.mem_cons_self, ?_⟩, le_rfl, fun _ ↦ ?_,
      absurd hrefused, .inl ⟨rfl, ?_⟩, absurd hrefused, fun _ ↦ ⟨rfl, rfl⟩⟩⟩
    · exact List.forall_mem_singleton.mpr le_rfl
    · exact iff_of_false Bool.false_ne_true fun ⟨p, hp, _⟩ ↦ List.not_mem_nil hp
    · exact fun p hp ↦ absurd hp List.not_mem_nil
  · rw [HookEngine.run_of_not_refused hrefused]
    obtain ⟨ran, skipped, h⟩ := exists_folds registry invoke invocation s
    exact ⟨ran, skipped, ⟨h.answered, h.decision, h.le_decision, h.blocked_iff,
      fun _ ↦ h.matching, h.stops, fun _ ↦ h.audit, fun h' ↦ absurd h' hrefused⟩⟩

/-- **What a run of the hooks decides.** -/
theorem run_decides :
    (∀ (σ : Type) (stopInProgress : Bool) (registry : HookRegistry) (invoke : Invoke σ)
      (invocation : HookInvocation) (s : σ),
      InOrder registry.rows (registry.matching invocation) ∧
      (registry.matching invocation).Perm (registry.rows.filter (·.fires invocation)) ∧
      ∃ ran skipped, Runs stopInProgress registry invoke invocation s
        (HookEngine.run stopInProgress registry invoke invocation s).2
        (HookEngine.run stopInProgress registry invoke invocation s).1 ran skipped) ∧
    ∀ (σ : Type) (stopInProgress : Bool) (registry registry' : HookRegistry) (invoke : Invoke σ)
      (answer : HookRegistration → HandlerResult) (invocation : HookInvocation) (s s' : σ),
      registry.rows.Perm registry'.rows → (∀ r s, (invoke r invocation s).1 = answer r) →
      (HookEngine.run stopInProgress registry invoke invocation s).1.blocked =
        (HookEngine.run stopInProgress registry' invoke invocation s').1.blocked ∧
      (HookEngine.run stopInProgress registry invoke invocation s).1.decision =
        (HookEngine.run stopInProgress registry' invoke invocation s').1.decision := by
  refine ⟨fun σ stopInProgress registry invoke invocation s ↦ ⟨inOrder_matching _ _,
    perm_matching _ _, exists_runs stopInProgress registry invoke invocation s⟩,
    fun σ stopInProgress registry registry' invoke answer invocation s s' hperm hanswer ↦ ?_⟩
  by_cases hrefused : Refused stopInProgress invocation
  · rw [HookEngine.run_of_refused hrefused, HookEngine.run_of_refused hrefused]
    exact ⟨rfl, rfl⟩
  · rw [HookEngine.run_of_not_refused hrefused, HookEngine.run_of_not_refused hrefused]
    obtain ⟨ran, skipped, h⟩ := exists_folds registry invoke invocation s
    obtain ⟨ran', skipped', h'⟩ := exists_folds registry' invoke invocation s'
    exact h.congr hanswer hperm h'

/-- A stop hook is registered, and the engine that handles a stop is asked for another: the only
record is the engine's own. -/
theorem not_records_refused : ¬ ∀ (stopInProgress : Bool) (registry : HookRegistry)
    (answer : HookRegistration → HandlerResult) (invocation : HookInvocation),
    ∀ r ∈ registry.matching invocation, ∃ record ∈ (HookEngine.run stopInProgress registry
      (fun r _ (s : Unit) ↦ (answer r, s)) invocation ()).1.audit, record.hookId = r.id := by
  intro h
  let hook : HookRegistration := ⟨"h", .stop, .function, none, none⟩
  let registry : HookRegistry := ⟨[hook], List.nodup_singleton _⟩
  let invocation : HookInvocation := ⟨.stop, none, none, none, none, [], none⟩
  obtain ⟨record, hrecord, hid⟩ := h true registry (fun _ ↦ .outcome .continue none) invocation hook
    List.mem_cons_self
  obtain rfl := List.mem_singleton.mp hrecord
  exact absurd hid (by decide)

end QwenHarness.Hooks
