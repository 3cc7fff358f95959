import QwenHarness.Hooks.Engine
import QwenHarness.Table.Pick

/-!
# The fold over the handlers

The handlers that run are a first part of those that match: all of them, or up to the first that
blocks. What the fold ends with is read off from what these answered. The decision is the most
restrictive of the one handed in and of what they restricted it to, so neither it nor the block
depends on the order in which the hooks were registered.

A stop that comes while the engine handles another is refused before any handler is asked.
-/

namespace QwenHarness.Hooks

open Policy FoldedHookResult

/-! ## The guard on a stop -/

def refusedStopResult (base : DecisionOutcome) : FoldedHookResult :=
  { start base with
    stopReentryRefused := true
    audit := [⟨"<engine>", .engine, .skipped,
      "Stop is already in progress; re-entrant Stop refused (HK-05)"⟩] }

/-- `HookEngine.run` on an engine that is handling a stop, or is not. -/
def HookEngine.run {σ : Type} (stopInProgress : Bool) (registry : HookRegistry) (invoke : Invoke σ)
    (invocation : HookInvocation) (s : σ) : FoldedHookResult × σ :=
  if invocation.event = .stop ∧ stopInProgress then
    (refusedStopResult (invocation.currentDecision.getD .allow), s)
  else runEngine registry invoke invocation s

/-! ## The most restrictive decision -/

section Restrictive

variable {base d d' : DecisionOutcome} {ds ds' : List DecisionOutcome}

/-- A decision is one of these, and none of these is more restrictive. -/
def IsMostRestrictive (d : DecisionOutcome) (ds : List DecisionOutcome) : Prop :=
  d ∈ ds ∧ ∀ e ∈ ds, restrictiveness e ≤ restrictiveness d

def stricter (current candidate : DecisionOutcome) : Bool :=
  decide (restrictiveness current < restrictiveness candidate)

theorem stricter_iff {current candidate : DecisionOutcome} : stricter current candidate ↔
    restrictiveness current < restrictiveness candidate := decide_eq_true_iff

theorem mostRestrictive_eq (current candidate : DecisionOutcome) :
    some (mostRestrictive current candidate) =
      Pick.better stricter (some current) (some candidate) := by
  rw [mostRestrictive, Pick.better]
  simp only [stricter_iff, apply_ite some]

/-- The fold is a scan that starts with the decision handed in. -/
theorem pick_stricter (base : DecisionOutcome) (ds : List DecisionOutcome) :
    Pick.pick stricter (base :: ds) = some (ds.foldl mostRestrictive base) := by
  change ds.foldl _ (some base) = _
  induction ds generalizing base with
  | nil => rfl
  | cons d ds ih => rw [List.foldl_cons, List.foldl_cons, ← mostRestrictive_eq, ih]

theorem isMostRestrictive_foldl (base : DecisionOutcome) (ds : List DecisionOutcome) :
    IsMostRestrictive (ds.foldl mostRestrictive base) (base :: ds) := by
  have hpick := pick_stricter base ds
  refine ⟨Pick.pick_mem hpick, fun e he ↦ ?_⟩
  have htrans : ∀ a b c, stricter a b → stricter b c → stricter a c := fun a b c hab hbc ↦
    stricter_iff.mpr ((stricter_iff.mp hab).trans (stricter_iff.mp hbc))
  have hkeep : ∀ a b c, ¬ stricter a b → ¬ stricter b c → ¬ stricter a c := fun a b c hab hbc ↦ by
    rw [stricter_iff, not_lt] at hab hbc ⊢
    exact hbc.trans hab
  rcases Pick.replaces_of_pick htrans hkeep hpick he with h | h
  · exact (stricter_iff.mp h).le
  · exact not_lt.mp fun hlt ↦ h (stricter_iff.mpr hlt)

/-- Only the decisions that restrict nothing share their place on the ladder. -/
theorem eq_of_restrictiveness (h : restrictiveness d = restrictiveness d') :
    d = d' ∨ restrictiveness d = 0 := by
  revert h
  cases d <;> cases d' <;> decide

/-- Decisions that restrict, in another order, leave the same one. -/
theorem IsMostRestrictive.eq (h : IsMostRestrictive d (base :: ds))
    (h' : IsMostRestrictive d' (base :: ds')) (hmem : ∀ e, e ∈ ds ↔ e ∈ ds')
    (hpos : ∀ e ∈ ds, restrictiveness e ≠ 0) : d = d' := by
  have hmem' : ∀ e, e ∈ base :: ds ↔ e ∈ base :: ds' := fun e ↦ by
    rw [List.mem_cons, List.mem_cons, hmem]
  have heq : restrictiveness d = restrictiveness d' :=
    le_antisymm (h'.2 d ((hmem' d).mp h.1)) (h.2 d' ((hmem' d').mpr h'.1))
  rcases eq_of_restrictiveness heq with h0 | h0
  · exact h0
  · have hbase : ∀ e ∈ base :: ds, restrictiveness e = 0 → e = base := fun e he hzero ↦
      (List.mem_cons.mp he).resolve_right fun hin ↦ hpos e hin hzero
    rw [hbase d h.1 h0, hbase d' ((hmem' d').mpr h'.1) (heq ▸ h0)]

end Restrictive

/-! ## What one answer does -/

section Answer

variable (event : HookEvent)

/-- The handler gave a block. -/
def HandlerResult.IsBlock (answer : HandlerResult) : Prop :=
  ∃ reason note, answer = .outcome (.block reason) note

/-- The answer ends the run. -/
def HandlerResult.blocks : HandlerResult → Bool
  | .outcome (.block _) _ => !isPostToolEvent event
  | _ => false

/-- What the answer restricts the decision to. -/
def HandlerResult.restriction : HandlerResult → Option DecisionOutcome
  | .outcome (.block _) _ => if isPostToolEvent event then none else some .deny
  | .outcome (.deny _) _ => some .deny
  | .outcome (.ask _) _ => some .ask
  | _ => none

def HandlerResult.auditOutcome : HandlerResult → AuditOutcome
  | .outcome given _ => .outcome given.type
  | .failure _ _ _ => .failure

/-- A record without its text. -/
def HookInvocationRecord.brief (record : HookInvocationRecord) :
    String × HandlerForm × AuditOutcome :=
  (record.hookId, record.form, record.outcome)

variable {event} {answer : HandlerResult} {registration : HookRegistration}
  (result : FoldedHookResult)

theorem HandlerResult.blocks_iff :
    answer.blocks event ↔ answer.IsBlock ∧ isPostToolEvent event = false := by
  rcases answer with ⟨outcome, remark⟩ | ⟨kind, message, detail⟩
  · cases outcome <;> simp [blocks, IsBlock]
  · simp [blocks, IsBlock]

theorem HandlerResult.restriction_of_blocks (h : answer.blocks event) :
    answer.restriction event = some .deny := by
  obtain ⟨⟨reason, note, rfl⟩, hevent⟩ := HandlerResult.blocks_iff.mp h
  rw [restriction, if_neg (Bool.eq_false_iff.mp hevent)]

theorem HandlerResult.restriction_ne_zero {d : DecisionOutcome}
    (h : answer.restriction event = some d) : restrictiveness d ≠ 0 := by
  revert h
  rcases answer with ⟨outcome, remark⟩ | ⟨kind, message, detail⟩
  · cases outcome <;> simp only [restriction, reduceCtorEq, false_implies, Option.some.injEq]
    · split <;> rintro ⟨⟩
      decide
    · rintro rfl
      decide
    · rintro rfl
      decide
  · rintro ⟨⟩

theorem decision_ran : (result.ran event registration answer).decision =
    (answer.restriction event).elim result.decision (mostRestrictive result.decision) := by
  rcases answer with ⟨outcome, remark⟩ | ⟨kind, message, detail⟩
  · cases outcome <;> simp only [ran, take, HandlerResult.restriction,
      FoldedHookResult.note, stopFor, ignoreElevation]
    all_goals first | rfl | (split <;> rfl)
  · rfl

theorem blocked_ran : (result.ran event registration answer).blocked =
    (result.blocked || answer.blocks event) := by
  rcases answer with ⟨outcome, remark⟩ | ⟨kind, message, detail⟩
  · cases outcome <;> simp only [ran, take, HandlerResult.blocks, FoldedHookResult.note,
      stopFor, ignoreElevation, Bool.or_false]
    all_goals split <;> simp_all
  · exact (Bool.or_false _).symm

theorem audit_ran : (result.ran event registration answer).audit.map HookInvocationRecord.brief =
    result.audit.map HookInvocationRecord.brief ++
      [(registration.id, registration.form, answer.auditOutcome)] := by
  rcases answer with ⟨outcome, remark⟩ | ⟨kind, message, detail⟩
  · cases outcome <;> simp only [ran, take, HandlerResult.auditOutcome,
      FoldedHookResult.note, stopFor, ignoreElevation]
    all_goals first | exact List.map_append | (split <;> exact List.map_append)
  · exact List.map_append

end Answer

/-! ## What a run does -/

/-- The handlers that ran, with what each answered. -/
abbrev Ran := List (HookRegistration × HandlerResult)

section Runs

variable {σ : Type} (invoke : Invoke σ) (invocation : HookInvocation)

/-- These handlers, asked one after the other, answer so. -/
def Answered : Ran → σ → σ → Prop
  | [], s, s' => s' = s
  | (registration, answer) :: rest, s, s' =>
    (invoke registration invocation s).1 = answer ∧
      Answered rest (invoke registration invocation s).2 s'

/-- Nothing is skipped and nothing blocks, or the last handler that ran is the first that blocks. -/
def StopsAtBlock (event : HookEvent) (ran : Ran) (skipped : List HookRegistration) : Prop :=
  (skipped = [] ∧ ∀ p ∈ ran, ¬ p.2.blocks event) ∨
    ∃ before p, ran = before ++ [p] ∧ p.2.blocks event ∧ ∀ q ∈ before, ¬ q.2.blocks event

def takeIn (event : HookEvent) (result : FoldedHookResult) (ran : Ran) : FoldedHookResult :=
  ran.foldl (fun result p ↦ result.ran event p.1 p.2) result

def skipAll (result : FoldedHookResult) (skipped : List HookRegistration) : FoldedHookResult :=
  skipped.foldl (fun result r ↦ result.skip r) result

variable {invoke invocation}

/-- After a block every handler is skipped. -/
theorem runHandlers_of_blocked {result : FoldedHookResult} (h : result.blocked = true)
    (registrations : List HookRegistration) (s : σ) :
    runHandlers invoke invocation registrations result s = (skipAll result registrations, s) := by
  induction registrations generalizing result with
  | nil => rfl
  | cons registration registrations ih =>
    rw [runHandlers, if_pos h, ih (show (result.skip registration).blocked = true from h)]
    rfl

/-- **A run splits the handlers** into those that ran and those that were skipped. -/
theorem exists_ran {result : FoldedHookResult} (h : result.blocked = false)
    (registrations : List HookRegistration) (s : σ) :
    ∃ ran skipped s', registrations = ran.map Prod.fst ++ skipped ∧
      Answered invoke invocation ran s s' ∧ StopsAtBlock invocation.event ran skipped ∧
      runHandlers invoke invocation registrations result s =
        (skipAll (takeIn invocation.event result ran) skipped, s') := by
  induction registrations generalizing result s with
  | nil => exact ⟨[], [], s, rfl, rfl, .inl ⟨rfl, by simp⟩, rfl⟩
  | cons registration registrations ih =>
    rw [runHandlers, if_neg (Bool.eq_false_iff.mp h)]
    rcases hanswer : invoke registration invocation s with ⟨answer, next⟩
    have hblocked : (result.ran invocation.event registration answer).blocked =
        answer.blocks invocation.event := by
      rw [blocked_ran, h, Bool.false_or]
    by_cases hblocks : answer.blocks invocation.event
    · refine ⟨[(registration, answer)], registrations, next, rfl, ?_,
        .inr ⟨[], (registration, answer), rfl, hblocks, by simp⟩, ?_⟩
      · exact ⟨by rw [hanswer], by rw [hanswer]; rfl⟩
      · exact runHandlers_of_blocked (hblocked.trans hblocks) registrations next
    · obtain ⟨ran, skipped, s', hsplit, hran, hstops, hrun⟩ :=
        ih (hblocked.trans (Bool.eq_false_iff.mpr hblocks)) next
      refine ⟨(registration, answer) :: ran, skipped, s', by rw [hsplit]; rfl, ?_, ?_, hrun⟩
      · exact ⟨by rw [hanswer], by rw [hanswer]; exact hran⟩
      · rcases hstops with ⟨hnil, hnone⟩ | ⟨before, p, rfl, hp, hbefore⟩
        · exact .inl ⟨hnil, List.forall_mem_cons.mpr ⟨hblocks, hnone⟩⟩
        · exact .inr ⟨(registration, answer) :: before, p, rfl, hp,
            List.forall_mem_cons.mpr ⟨hblocks, hbefore⟩⟩

end Runs

section Folds

variable {event : HookEvent} (result : FoldedHookResult) (ran : Ran)
  (skipped : List HookRegistration)

theorem decision_takeIn : (takeIn event result ran).decision =
    (ran.filterMap fun p ↦ p.2.restriction event).foldl mostRestrictive result.decision := by
  induction ran generalizing result with
  | nil => rfl
  | cons p ran ih =>
    rw [takeIn, List.foldl_cons, ← takeIn, ih, decision_ran, List.filterMap_cons]
    cases p.2.restriction event <;> rfl

theorem blocked_takeIn : (takeIn event result ran).blocked =
    (result.blocked || ran.any fun p ↦ p.2.blocks event) := by
  induction ran generalizing result with
  | nil => exact (Bool.or_false _).symm
  | cons p ran ih => rw [takeIn, List.foldl_cons, ← takeIn, ih, blocked_ran, List.any_cons,
      Bool.or_assoc]

theorem audit_takeIn : (takeIn event result ran).audit.map HookInvocationRecord.brief =
    result.audit.map HookInvocationRecord.brief ++
      ran.map fun p ↦ (p.1.id, p.1.form, p.2.auditOutcome) := by
  induction ran generalizing result with
  | nil => exact (List.append_nil _).symm
  | cons p ran ih => rw [takeIn, List.foldl_cons, ← takeIn, ih, audit_ran, List.append_assoc,
      List.singleton_append, List.map_cons]

theorem decision_skipAll : (skipAll result skipped).decision = result.decision := by
  induction skipped generalizing result with
  | nil => rfl
  | cons r skipped ih => exact ih (result.skip r)

theorem blocked_skipAll : (skipAll result skipped).blocked = result.blocked := by
  induction skipped generalizing result with
  | nil => rfl
  | cons r skipped ih => exact ih (result.skip r)

theorem audit_skipAll : (skipAll result skipped).audit.map HookInvocationRecord.brief =
    result.audit.map HookInvocationRecord.brief ++
      skipped.map fun r ↦ (r.id, r.form, .skipped) := by
  induction skipped generalizing result with
  | nil => exact (List.append_nil _).symm
  | cons r skipped ih =>
    have hskip : (result.skip r).audit.map HookInvocationRecord.brief =
        result.audit.map HookInvocationRecord.brief ++ [(r.id, r.form, .skipped)] :=
      List.map_append
    rw [skipAll, List.foldl_cons, ← skipAll, ih, hskip, List.append_assoc, List.singleton_append,
      List.map_cons]

end Folds

end QwenHarness.Hooks
