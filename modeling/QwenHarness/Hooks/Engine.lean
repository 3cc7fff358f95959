import QwenHarness.Hooks.Registry

/-!
# The hook engine

The handlers of an event run one after the other, and their outcomes are folded into one result. The
decision that is handed in can only get more restrictive on the way. A handler that fails changes
nothing but the list of failures. A block ends the run of an event that comes before an action: the
handlers after it are skipped.
-/

namespace QwenHarness.Hooks

open Policy

/-! ## Outcomes -/

structure HookReason where
  code : String
  message : String
deriving DecidableEq, Repr

structure McpAnnotation where
  key : String
  value : String
deriving DecidableEq, Repr

inductive HookOutcome where
  | continue
  | block (reason : HookReason)
  | context (text : String)
  | modify (toolInput : Arguments)
  | allow (reason : HookReason)
  | passthrough (reason : HookReason)
  | deny (reason : HookReason)
  | ask (reason : HookReason)
  | stop (reason : HookReason)
  | annotate (annotations : List McpAnnotation)

inductive HookOutcomeType where
  | continue
  | block
  | context
  | modify
  | allow
  | passthrough
  | deny
  | ask
  | stop
  | annotate
deriving DecidableEq, Repr

def HookOutcome.type : HookOutcome → HookOutcomeType
  | .continue => .continue
  | .block _ => .block
  | .context _ => .context
  | .modify _ => .modify
  | .allow _ => .allow
  | .passthrough _ => .passthrough
  | .deny _ => .deny
  | .ask _ => .ask
  | .stop _ => .stop
  | .annotate _ => .annotate

def HookOutcomeType.name : HookOutcomeType → String
  | .continue => "continue"
  | .block => "block"
  | .context => "context"
  | .modify => "modify"
  | .allow => "allow"
  | .passthrough => "passthrough"
  | .deny => "deny"
  | .ask => "ask"
  | .stop => "stop"
  | .annotate => "annotate"

inductive HookFailureKind where
  | timeout
  | cancelled
  | nonzeroExit
  | spawnError
  | transport
  | malformedOutput
  | exception
  | misconfigured
deriving DecidableEq, Repr

def HookFailureKind.name : HookFailureKind → String
  | .timeout => "timeout"
  | .cancelled => "cancelled"
  | .nonzeroExit => "nonzero-exit"
  | .spawnError => "spawn-error"
  | .transport => "transport"
  | .malformedOutput => "malformed-output"
  | .exception => "exception"
  | .misconfigured => "misconfigured"

/-- A handler gives an outcome, or it fails visibly. -/
inductive HandlerResult where
  | outcome (outcome : HookOutcome) (note : Option String)
  | failure (kind : HookFailureKind) (message : String) (detail : Option String)

/-! ## The result of a run -/

structure AttributedReason where
  hookId : String
  reason : HookReason
deriving DecidableEq, Repr

/-- A proposed tool input. It is never applied here. -/
structure ModifiedInputProposal where
  hookId : String
  toolInput : Arguments

structure AttributedAnnotations where
  hookId : String
  annotations : List McpAnnotation
deriving DecidableEq, Repr

/-- A handler that tried to loosen the decision. -/
structure IgnoredElevation where
  hookId : String
  requested : HookOutcomeType
  reason : HookReason
  note : String
deriving DecidableEq, Repr

structure HookFailure where
  hookId : String
  kind : HookFailureKind
  message : String
  detail : Option String
deriving DecidableEq, Repr

inductive AuditOutcome where
  | outcome (type : HookOutcomeType)
  | failure
  | skipped
deriving DecidableEq, Repr

structure HookInvocationRecord where
  hookId : String
  form : HandlerForm
  outcome : AuditOutcome
  note : String
deriving DecidableEq, Repr

/-- What is gathered over the handlers. `decision` starts as the decision that was handed in. -/
structure FoldedHookResult where
  ranHandlers : ℕ
  blocked : Bool
  blockReason : Option AttributedReason
  decision : DecisionOutcome
  modifications : List ModifiedInputProposal
  stopped : Bool
  stopReason : Option AttributedReason
  annotations : List AttributedAnnotations
  ignoredElevations : List IgnoredElevation
  failures : List HookFailure
  stopReentryRefused : Bool
  audit : List HookInvocationRecord

namespace FoldedHookResult

def start (base : DecisionOutcome) : FoldedHookResult where
  ranHandlers := 0
  blocked := false
  blockReason := none
  decision := base
  modifications := []
  stopped := false
  stopReason := none
  annotations := []
  ignoredElevations := []
  failures := []
  stopReentryRefused := false
  audit := []

/-- The place on the ladder that the fold only walks up. -/
def restrictiveness : DecisionOutcome → ℕ
  | .passthrough => 0
  | .allow => 0
  | .ask => 1
  | .deny => 2

def mostRestrictive (current candidate : DecisionOutcome) : DecisionOutcome :=
  if restrictiveness current < restrictiveness candidate then candidate else current

def loosening : String :=
  "a hook may not loosen a permission decision; recorded and ignored (HK-04)"

variable (event : HookEvent) (registration : HookRegistration) (result : FoldedHookResult)

/-- Prevent the next step. The first reason stays. -/
def stopFor (reason : HookReason) : FoldedHookResult :=
  { result with
    stopped := true
    stopReason := result.stopReason <|> some ⟨registration.id, reason⟩ }

def ignoreElevation (requested : HookOutcomeType) (reason : HookReason) : FoldedHookResult :=
  { result with
    ignoredElevations :=
      result.ignoredElevations ++ [⟨registration.id, requested, reason, loosening⟩] }

/-- Take an outcome in. -/
def take : HookOutcome → FoldedHookResult
  | .continue => result
  | .block reason =>
    -- An action that is over cannot be blocked any more, only what comes next.
    if isPostToolEvent event then stopFor registration result reason
    else
      { result with
        blocked := true
        blockReason := some ⟨registration.id, reason⟩
        decision := mostRestrictive result.decision .deny }
  | .context _ => result
  | .modify toolInput =>
    { result with modifications := result.modifications ++ [⟨registration.id, toolInput⟩] }
  | .allow reason => ignoreElevation registration result .allow reason
  | .passthrough reason => ignoreElevation registration result .passthrough reason
  | .deny _ => { result with decision := mostRestrictive result.decision .deny }
  | .ask _ => { result with decision := mostRestrictive result.decision .ask }
  | .stop reason =>
    if event = .stop then { result with stopReentryRefused := true }
    else stopFor registration result reason
  | .annotate annotations =>
    { result with annotations := result.annotations ++ [⟨registration.id, annotations⟩] }

def note (record : HookInvocationRecord) : FoldedHookResult :=
  { result with audit := result.audit ++ [record] }

/-- The handler does not run: one before it blocked. -/
def skip : FoldedHookResult :=
  result.note ⟨registration.id, registration.form, .skipped,
    "skipped: a prior hook blocked the action"⟩

/-- The handler ran. -/
def ran : HandlerResult → FoldedHookResult
  | .failure kind message detail =>
    note
      { result with
        ranHandlers := result.ranHandlers + 1
        failures := result.failures ++ [⟨registration.id, kind, message, detail⟩] }
      ⟨registration.id, registration.form, .failure, kind.name ++ ": " ++ message⟩
  | .outcome outcome remark =>
    let text : String :=
      match remark with
      | none => outcome.type.name
      | some remark =>
        if remark = "" then outcome.type.name
        else outcome.type.name ++ " (" ++ remark ++ ")"
    take event registration
      (note { result with ranHandlers := result.ranHandlers + 1 }
        ⟨registration.id, registration.form, .outcome outcome.type, text⟩) outcome

end FoldedHookResult

/-! ## Running the handlers -/

section Run

variable {σ : Type}

/-- What the handlers do: any result, and any change of the outside. -/
abbrev Invoke (σ : Type) := HookRegistration → HookInvocation → σ → HandlerResult × σ

def runHandlers (invoke : Invoke σ) (invocation : HookInvocation) :
    List HookRegistration → FoldedHookResult → σ → FoldedHookResult × σ
  | [], result, s => (result, s)
  | registration :: registrations, result, s =>
    if result.blocked then
      runHandlers invoke invocation registrations (result.skip registration) s
    else
      let (answer, s) := invoke registration invocation s
      runHandlers invoke invocation registrations
        (result.ran invocation.event registration answer) s

/-- `HookEngine.run`. A stop that comes while another is handled is refused by a guard that only a
handler inside the process can meet, and there are none in a configuration. -/
def runEngine (registry : HookRegistry) (invoke : Invoke σ) (invocation : HookInvocation) (s : σ) :
    FoldedHookResult × σ :=
  runHandlers invoke invocation (registry.matching invocation)
    (.start (invocation.currentDecision.getD .allow)) s

end Run

/-! ## What restricts -/

/-- A handler that ran gave this outcome. -/
def FoldedHookResult.Gave (result : FoldedHookResult) (type : HookOutcomeType) : Prop :=
  ∃ record ∈ result.audit, record.outcome = .outcome type

/-- The fold so far, for an event that comes before an action. -/
structure FoldedHookResult.Restricts (base : DecisionOutcome) (result : FoldedHookResult) :
    Prop where
  deny_iff : result.decision = .deny ↔
    base = .deny ∨ result.Gave .block ∨ result.Gave .deny
  blocked_iff : result.blocked = true ↔ result.Gave .block

namespace FoldedHookResult

variable {base : DecisionOutcome} {result : FoldedHookResult} {event : HookEvent}

theorem gave_note {record : HookInvocationRecord} {type : HookOutcomeType} :
    (result.note record).Gave type ↔ result.Gave type ∨ record.outcome = .outcome type := by
  rw [Gave, Gave, note]
  simp only [List.mem_append, List.mem_singleton, or_and_right, exists_or, exists_eq_left]

theorem mostRestrictive_deny (d : DecisionOutcome) : mostRestrictive d .deny = .deny := by
  cases d <;> rfl

theorem mostRestrictive_ask {d : DecisionOutcome} :
    mostRestrictive d .ask = .deny ↔ d = .deny := by
  cases d <;> decide

theorem restricts_start (base : DecisionOutcome) : Restricts base (.start base) where
  deny_iff := by
    refine (or_iff_left ?_).symm
    rintro (⟨_, h, -⟩ | ⟨_, h, -⟩) <;> exact List.not_mem_nil h
  blocked_iff := by
    refine iff_of_false Bool.false_ne_true ?_
    rintro ⟨_, h, -⟩
    exact List.not_mem_nil h

/-- A record that neither blocks nor denies leaves what restricts. -/
theorem Restricts.note (h : Restricts base result) {record : HookInvocationRecord}
    (hblock : record.outcome ≠ .outcome .block) (hdeny : record.outcome ≠ .outcome .deny) :
    Restricts base (result.note record) where
  deny_iff := by
    rw [gave_note, gave_note, or_iff_left hblock, or_iff_left hdeny]
    exact h.deny_iff
  blocked_iff := by
    rw [gave_note, or_iff_left hblock]
    exact h.blocked_iff

theorem Restricts.skip (h : Restricts base result) (registration : HookRegistration) :
    Restricts base (result.skip registration) :=
  h.note (by rintro ⟨⟩) (by rintro ⟨⟩)

/-- The same decision, the same records, the same block. -/
theorem Restricts.congr (h : Restricts base result) {result' : FoldedHookResult}
    (hdecision : result'.decision = result.decision) (hblocked : result'.blocked = result.blocked)
    (haudit : result'.audit = result.audit) : Restricts base result' where
  deny_iff := by
    rw [Gave, Gave, hdecision, haudit]
    exact h.deny_iff
  blocked_iff := by
    rw [Gave, hblocked, haudit]
    exact h.blocked_iff

/-- **One handler** keeps what the fold says about the handlers before it. -/
theorem Restricts.ran (h : Restricts base result) (hevent : isPostToolEvent event = false)
    (registration : HookRegistration) (answer : HandlerResult) :
    Restricts base (result.ran event registration answer) := by
  cases answer with
  | failure kind message detail =>
    have hfailed : Restricts base
        { result with
          ranHandlers := result.ranHandlers + 1
          failures := result.failures ++ [⟨registration.id, kind, message, detail⟩] } :=
      h.congr rfl rfl rfl
    exact hfailed.note (by rintro ⟨⟩) (by rintro ⟨⟩)
  | outcome outcome remark =>
    have hcounted : Restricts base { result with ranHandlers := result.ranHandlers + 1 } :=
      h.congr rfl rfl rfl
    change Restricts base (take event registration (FoldedHookResult.note _ _) outcome)
    -- Where the outcome is none of these two, its record leaves what restricts.
    have hplain : ∀ text, outcome.type ≠ .block → outcome.type ≠ .deny → Restricts base
        ({ result with ranHandlers := result.ranHandlers + 1 }.note
          ⟨registration.id, registration.form, .outcome outcome.type, text⟩) :=
      fun text hblock hdeny ↦ hcounted.note (fun heq ↦ hblock (AuditOutcome.outcome.inj heq))
        fun heq ↦ hdeny (AuditOutcome.outcome.inj heq)
    cases outcome with
    | block reason =>
      rw [take, if_neg (Bool.eq_false_iff.mp hevent)]
      refine ⟨iff_of_true (mostRestrictive_deny _) (.inr (.inl ?_)), iff_of_true rfl ?_⟩ <;>
        exact gave_note.mpr (.inr rfl)
    | deny reason =>
      refine ⟨iff_of_true (mostRestrictive_deny _) (.inr (.inr (gave_note.mpr (.inr rfl)))), ?_⟩
      refine h.blocked_iff.trans (Iff.trans (or_iff_left ?_).symm gave_note.symm)
      rintro ⟨⟩
    | ask reason =>
      have hnote := fun text ↦ hplain text (by rintro ⟨⟩) (by rintro ⟨⟩)
      exact ⟨mostRestrictive_ask.trans (hnote _).deny_iff, (hnote _).blocked_iff⟩
    | stop reason =>
      rw [take]
      split_ifs
      · exact (hplain _ (by rintro ⟨⟩) (by rintro ⟨⟩)).congr rfl rfl rfl
      · exact (hplain _ (by rintro ⟨⟩) (by rintro ⟨⟩)).congr rfl rfl rfl
    | _ => exact (hplain _ (by rintro ⟨⟩) (by rintro ⟨⟩)).congr rfl rfl rfl

end FoldedHookResult

/-- **What the fold says.** Before an action, the decision is `deny` exactly if it was before or a
handler that ran blocked or denied; and the action is blocked exactly if a handler that ran
blocked. -/
theorem restricts_runEngine {σ : Type} (registry : HookRegistry) (invoke : Invoke σ)
    {invocation : HookInvocation} (hevent : isPostToolEvent invocation.event = false) (s : σ) :
    (runEngine registry invoke invocation s).1.Restricts
      (invocation.currentDecision.getD .allow) := by
  rw [runEngine]
  have hstart := FoldedHookResult.restricts_start (invocation.currentDecision.getD .allow)
  generalize registry.matching invocation = registrations
  generalize FoldedHookResult.start _ = result at hstart ⊢
  induction registrations generalizing result s with
  | nil => exact hstart
  | cons registration registrations ih =>
    rw [runHandlers]
    split_ifs with hblocked
    · exact ih _ _ (hstart.skip registration)
    · exact ih _ _ (hstart.ran hevent registration _)

end QwenHarness.Hooks
