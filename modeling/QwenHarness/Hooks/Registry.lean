import QwenHarness.Policy.Engine
import QwenHarness.Table.Keyed

/-!
# Hook registrations

A registration binds an event, a matcher and a handler. The registry answers which handlers run for
an invocation, and in which order: by priority, and in the order of registration where that is equal.
What a handler does is a matter of the outside; here it has a form and an id.
-/

namespace QwenHarness.Hooks

open Pattern Policy

inductive HookEvent where
  | preToolUse
  | postToolUse
  | postToolUseFailure
  | sessionStart
  | sessionEnd
  | stop
  | stopFailure
  | setup
  | userPromptSubmit
  | notification
  | permissionRequest
  | permissionDenied
  | subagentStart
  | subagentStop
  | preCompact
  | postCompact
  | teammateIdle
  | taskCreated
  | taskCompleted
  | elicitation
  | elicitationResult
  | configChange
  | worktreeCreate
  | worktreeRemove
  | instructionsLoaded
  | cwdChanged
  | fileChanged
  | userPromptExpansion
  | messageDisplay
  | postToolBatch
deriving DecidableEq, Repr

/-- The tool has run already. -/
def isPostToolEvent (event : HookEvent) : Bool :=
  decide (event ∈ [HookEvent.postToolUse, .postToolUseFailure, .postToolBatch])

/-! ## Registrations -/

/-- What a handler is told. -/
structure HookInvocation where
  event : HookEvent
  toolName : Option String
  toolInput : Option Arguments
  paths : Option (List String)
  /-- The decision that was reached already. -/
  currentDecision : Option DecisionOutcome
  data : List (String × Codec.Value)
  correlationId : Option String

inductive HandlerForm where
  | function
  | command
  | http
  | prompt
  | agent
  /-- The engine itself, in its record of a stop it refuses. No handler has this form. -/
  | engine
deriving DecidableEq, Repr

structure HookMatcher where
  toolName : Option String
  pathGlob : Option String
  condition : Option (HookInvocation → Bool)

structure HookRegistration where
  id : String
  event : HookEvent
  form : HandlerForm
  matcher : Option HookMatcher
  priority : Option ℤ

/-! ## Matching -/

/-- The glob as a pattern of code units. `**/` also stands for no directory at all. -/
def globToRegExp : List ℕ → List (Pattern.Part ℕ)
  | [] => []
  | c :: rest =>
    if c = Policy.star then
      match rest with
      | d :: rest' =>
        if d = Policy.star then
          match rest' with
          | e :: rest'' =>
            if e = slash then .many notLineEnd :: globToRegExp rest''
            else .many notLineEnd :: globToRegExp (e :: rest'')
          | [] => [.many notLineEnd]
        else .many notSlash :: globToRegExp (d :: rest')
      | [] => [.many notSlash]
    else if c = question then .one notSlash :: globToRegExp rest
    else .letter c :: globToRegExp rest

def globMatches (glob text : String) : Bool :=
  accepts (globToRegExp (codeUnits glob)) (codeUnits text)

/-- Every filter that is set has to let the invocation through. -/
def matcherApplies (matcher : Option HookMatcher) (invocation : HookInvocation) : Bool :=
  match matcher with
  | none => true
  | some matcher =>
    (matcher.toolName.all fun glob ↦ invocation.toolName.any fun name ↦ globMatches glob name) &&
      (matcher.pathGlob.all fun glob ↦
        (invocation.paths.getD []).any fun path ↦ globMatches glob path) &&
      matcher.condition.all fun condition ↦ condition invocation

/-- The registrations in the order they were made, no two under one id. -/
abbrev HookRegistry := Keyed HookRegistration.id

/-- The registrations that fire, in the order they run. -/
def HookRegistry.matching (registry : HookRegistry) (invocation : HookInvocation) :
    List HookRegistration :=
  (registry.rows.filter fun r ↦
    decide (r.event = invocation.event) && matcherApplies r.matcher invocation).insertionSort
      fun a b ↦ a.priority.getD 0 ≤ b.priority.getD 0

end QwenHarness.Hooks
