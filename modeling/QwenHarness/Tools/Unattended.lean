import Mathlib.Data.List.DropRight
import QwenHarness.Background.Sink
import QwenHarness.Policy.Authority
import QwenHarness.Tools.Pipeline

/-!
# Commands that run unattended

A job of the scheduler and a background task run a command without anyone to ask. The authority is
captured when the job is made, with a rule that allows just this command, and narrowed by the
managed ceiling when the job fires. The command then goes through the pipeline under that authority
alone: the ceiling is taken to be in it already.

What is in it are the bounds of the ceiling. Its rules are not, so a managed rule stops the command
only where something else would have stopped it anyway.
-/

namespace QwenHarness.Tools

open Policy
open Background (BackgroundCategory SinkContext recordStart)
open EventStore (AppendCall Draw appendAll)

/-! ## The shell tool -/

/-- What `trim` takes off: blanks and line ends. -/
def isTrimmed (c : Char) : Bool :=
  decide (c.toNat ∈ [0x09, 0x0A, 0x0B, 0x0C, 0x0D, 0x20, 0xA0, 0x1680, 0x2028, 0x2029, 0x202F,
    0x205F, 0x3000, 0xFEFF] ∨ (0x2000 ≤ c.toNat ∧ c.toNat ≤ 0x200A))

def trim (s : String) : String :=
  String.ofList ((s.toList.dropWhile isTrimmed).rdropWhile isTrimmed)

/-- The command line: the program and its arguments, separated by blanks. -/
def commandLine (command : String) (argv : List String) : String :=
  trim (command ++ " " ++ " ".intercalate argv)

/-- The segments of a path with `.` and `..` resolved. -/
def resolveSegments (segments : List (List Char)) : List (List Char) :=
  segments.foldl
    (fun done s ↦
      if s = [] ∨ s = ['.'] then done else if s = ['.', '.'] then done.dropLast else done ++ [s]) []

/-- `posix.resolve`, for a process that runs in `processCwd`. -/
def posixResolve (processCwd root relative : String) : String :=
  let isAbsolute (p : List Char) : Bool := decide (['/'] <+: p)
  let below (base p : List Char) : List Char := if isAbsolute p then p else base ++ '/' :: p
  let full := below (below processCwd.toList root.toList) relative.toList
  String.ofList ('/' :: ['/'].intercalate (resolveSegments (full.splitOn '/')))

structure ShellInput where
  command : String
  argv : List String
  cwd : String
deriving DecidableEq, Repr

/-- A path of the workspace: bounded, and not absolute. -/
def isRelPath (p : String) : Bool :=
  decide (1 ≤ utf16Length p ∧ utf16Length p ≤ 4096 ∧ ¬ ['/'] <+: p.toList)

def isShellInput (input : ShellInput) : Bool :=
  decide (1 ≤ utf16Length input.command ∧ utf16Length input.command ≤ 1000) &&
    decide (input.argv.length ≤ 256) &&
    input.argv.all (fun arg ↦ decide (utf16Length arg ≤ 4096)) && isRelPath input.cwd

/-- What the worker is asked to do. -/
structure ShellRequest where
  command : String
  argv : List String
  relativeCwd : String
deriving DecidableEq, Repr

def shellAction (processCwd workspaceRoot : String) (input : ShellInput) : NormalizedAction :=
  .shell (commandLine input.command input.argv) (input.command :: input.argv)
    (posixResolve processCwd workspaceRoot input.cwd)

/-- The tool that runs a program. `explain` is what the schema library says about bad arguments. -/
def shellTool (processCwd : String) (explain : ShellInput → String) :
    BuiltinTool ShellInput ShellInput ShellRequest where
  name := "run_shell"
  definition :=
    { inputSchema := fun input ↦
        if isShellInput input then .ok input else .error (explain input)
      validate := fun _ ↦ none }
  toAction input workspaceRoot := shellAction processCwd workspaceRoot input
  toWorkerRequest input := ⟨input.command, input.argv, input.cwd⟩

/-! ## Running a workload -/

structure ShellResult where
  exitCode : Option ℤ
  stdout : Option String
  stderr : Option String
deriving DecidableEq, Repr

inductive WorkerResponse where
  | ok (result : ShellResult)
  | error (category message : String)
deriving DecidableEq, Repr

/-- What the worker may do: the shell, and the network if the authority has it. -/
structure WorkerGrant where
  readable : List String
  writable : List String
  shell : Bool
  network : Bool
  wallMs : ℕ
  maxOutputBytes : ℕ
  maxFileBytes : ℕ
deriving DecidableEq, Repr

def grantFor (authority : Authority) : WorkerGrant :=
  ⟨["workspace", "scratch"], ["workspace", "scratch"], true, authority.networkAllowed, 120000,
    2000000, 10000000⟩

structure ShellWorkload where
  command : String
  argv : List String
  cwd : String
  /-- The authority the command runs under. -/
  authority : Authority

structure ShellRunResult where
  ok : Bool
  code : Option ℤ
  text : String
  reason : Option String
deriving DecidableEq, Repr

/-- What the pipeline of unattended work consists of. Of the tools, only the shell is called. -/
structure Unattended (ε σ : Type) where
  sys : Platform
  processCwd : String
  homeDir : String
  explain : ShellInput → String
  run : WorkerInput ShellRequest WorkerGrant → σ → Except ε WorkerResponse × σ

def backgroundActor : Actor := ⟨.system, "act_background", none⟩

section Run

variable {ε σ : Type} (env : Unattended ε σ)

def Unattended.pipeline :
    ToolPipeline ShellInput ShellInput ShellRequest WorkerGrant WorkerResponse ε σ where
  sys := env.sys
  registry name :=
    if name = "run_shell" then some (shellTool env.processCwd env.explain).definition else none
  builtins := [shellTool env.processCwd env.explain]
  run := env.run

/-- The context of a workload. The authority stands for the ceiling, which is not given again. -/
def workloadContext (homeDir : String) (now : ℤ) (workload : ShellWorkload) : PolicyContext where
  profile := workload.authority.profile
  managedPolicy := noManagedRestrictions
  rules := workload.authority.rules
  grants := workload.authority.grants
  workspaceRoot := workload.cwd
  homeDir := homeDir
  now := now
  actor := backgroundActor
  hookOutcome := none

def workloadInput (homeDir callId : String) (now : ℤ) (workload : ShellWorkload) :
    ExecuteInput ShellInput WorkerGrant where
  callId := callId
  toolName := "run_shell"
  rawArguments := ⟨workload.command, workload.argv, "."⟩
  policyContext := workloadContext homeDir now workload
  grant := grantFor workload.authority
  isolation := workload.authority.isolation

/-- What is reported of an outcome. Nobody can be asked, so a question is a failure. -/
def shellRunResult : PipelineOutcome WorkerResponse → ShellRunResult
  | .executed (.ok result) _ _ _ =>
    let code := result.exitCode.getD 0
    let stderr := result.stderr.getD ""
    ⟨decide (code = 0), some code,
      result.stdout.getD "" ++ (if stderr = "" then "" else "\n[stderr] " ++ stderr),
      if code = 0 then none else some ("exit " ++ toString code)⟩
  | .executed (.error category message) _ _ _ =>
    ⟨false, none, "", some (category ++ ": " ++ message)⟩
  | .denied reason _ => ⟨false, none, "", some ("denied: " ++ reason)⟩
  | .needsApproval _ description _ =>
    ⟨false, none, "", some ("needs approval (no channel): " ++ description)⟩
  | .rejected stage message =>
    let stageName := match stage with
      | .schema => "schema"
      | .semantic => "semantic"
      | .unknownTool => "unknown-tool"
    ⟨false, none, "", some ("rejected (" ++ stageName ++ "): " ++ message)⟩

/-- Run a workload under its own authority. -/
def Unattended.runSandboxedShell (callId : String) (now : ℤ) (workload : ShellWorkload) (w : σ) :
    Except ε ShellRunResult × σ :=
  match env.pipeline.execute (workloadInput env.homeDir callId now workload) w with
  | (.ok outcome, w') => (.ok (shellRunResult outcome), w')
  | (.error e, w') => (.error e, w')

/-- The command of the workload is executed: the worker is reached. -/
def Unattended.executes (callId : String) (now : ℤ) (workload : ShellWorkload) (w : σ) : Bool :=
  reachesWorker (env.pipeline.execute (workloadInput env.homeDir callId now workload) w).1

end Run

/-! ## The authority of a job -/

/-- The authority a command of the operator runs under. -/
structure RunAuthority where
  managedPolicy : ManagedPolicy
  rules : List PolicyRule
  profile : PermissionProfile
  isolation : IsolationMode
  networkAllowed : Bool
deriving DecidableEq, Repr

/-- A rule that allows exactly the command the operator gave. -/
def preapprovalRule (command : String) (argv : List String) : PolicyRule where
  id := "cron.preapproved:" ++ commandLine command argv
  scope := .session
  effect := .allow
  «match» :=
    { ActionMatcher.empty with
      kinds := some [.shell]
      commandLines := some [commandLine command argv] }
  reason := "preapproved: the operator scheduled/launched exactly this command for unattended run"

/-- The ceiling that is captured when a job is made. -/
def authorityOf (run : RunAuthority) (cwd : String) (extraRules : List PolicyRule) : Authority where
  profile := run.profile
  isolation := run.isolation
  networkAllowed := run.networkAllowed
  workspaceRoots := [cwd]
  rules := run.rules ++ extraRules
  grants := []
  maxChildDepth := run.managedPolicy.maxChildDepth

/-- The authority a job fires under: what was captured, narrowed by the ceiling of the time. -/
def firedAuthority (ceiling : Authority) (managed : ManagedPolicy) : Authority :=
  intersect ceiling ceiling managed

/-- A background task, run under the authority it was started with. -/
def startedWorkload (run : RunAuthority) (command : String) (argv : List String) (cwd : String) :
    ShellWorkload :=
  ⟨command, argv, cwd, authorityOf run cwd [preapprovalRule command argv]⟩

/-- A job made in one directory that fires in another, under the ceiling of the time. -/
def firedWorkload (run : RunAuthority) (command : String) (argv : List String)
    (addedCwd firedCwd : String) (managed : ManagedPolicy) : ShellWorkload :=
  ⟨command, argv, firedCwd,
    firedAuthority (authorityOf run addedCwd [preapprovalRule command argv]) managed⟩

/-! ## When the command runs -/

section Executes

variable {ε σ : Type} {env : Unattended ε σ}

/-- The action of a workload. -/
def Unattended.action (env : Unattended ε σ) (workload : ShellWorkload) : NormalizedAction :=
  shellAction env.processCwd workload.cwd ⟨workload.command, workload.argv, "."⟩

/-- A matcher for one command line matches the commands with that line. -/
theorem matches_commandLine {line : String} {argv : List String} {cwd homeDir digest : String} :
    matchesAction { ActionMatcher.empty with kinds := some [.shell], commandLines := some [line] }
      (.shell line argv cwd) homeDir digest = true := by
  have hline : anyTextGlob [line] [line] = true := by
    rw [anyTextGlob, List.any_cons, List.any_cons, matchTextGlob_self, Bool.true_or, Bool.true_or]
  simp only [matchesAction, isEmptyMatcher, ActionMatcher.empty, asks, Option.map_none,
    Option.getD_none, Option.map_some, Option.getD_some, hline, NormalizedAction.kind,
    ActionMatcher.mk.injEq, reduceCtorEq, false_and, decide_false, Bool.not_false, Bool.and_true,
    List.mem_singleton, decide_true]

/-- The command is allowed by the rule that was made for it. -/
theorem matches_preapprovalRule (workload : ShellWorkload) (homeDir digest : String) :
    matchesAction (preapprovalRule workload.command workload.argv).match (env.action workload)
      homeDir digest = true := matches_commandLine

/-- The rule of a session that allows says `allow`. -/
theorem opinion_preapprovalRule (command : String) (argv : List String) :
    (preapprovalRule command argv).opinion = Restriction.allow := by
  have hscope : mayAllow (preapprovalRule command argv).scope = true := rfl
  have heffect : (preapprovalRule command argv).effect = .allow := rfl
  rw [PolicyRule.opinion, PolicyRule.toMatch, if_neg (fun h ↦ absurd (hscope.symm.trans h.2)
    (by decide)), heffect]
  rfl

/-- A rule that takes away matches the action of the workload. -/
def RuleRefuses (env : Unattended ε σ) (workload : ShellWorkload) (rules : List PolicyRule) :
    Prop :=
  ∃ rule ∈ rules, restrictiveRule rule = true ∧
    matchesAction rule.match (env.action workload) env.homeDir
      (actionDigest env.sys (env.action workload)) = true

/-- Something refuses the workload that is not a managed rule: its arguments, the form of its
action, the profile, a protected directory, or an ordinary rule. -/
def RefusedAnyway (env : Unattended ε σ) (workload : ShellWorkload) (profile : PermissionProfile)
    (rules : List PolicyRule) : Prop :=
  isShellInput ⟨workload.command, workload.argv, "."⟩ = false ∨
    checkCanonicalAction env.sys (env.action workload) ≠ [] ∨ profile = .plan ∨
    (profile ≠ .yolo ∧ classifyPath (posixResolve env.processCwd workload.cwd ".") .read
      workload.cwd env.homeDir ≠ []) ∨
    RuleRefuses env workload rules

/-- Whether a rule says more than `allow`. -/
theorem opinion_le_allow_iff {rule : PolicyRule} :
    rule.opinion ≤ Restriction.allow ↔ restrictiveRule rule = false := by
  cases he : rule.effect with
  | allow =>
    have hle : rule.opinion ≤ Restriction.allow := by
      unfold PolicyRule.opinion PolicyRule.toMatch
      split
      · exact bot_le
      · rw [he]
        exact le_rfl
    simp [hle, restrictiveRule, he]
  | _ =>
    rw [opinion_of_ne_allow (by rw [he]; decide), restrictiveRule, he]
    decide

theorem opinions_le_allow_iff {rules : List PolicyRule} {action : NormalizedAction}
    {homeDir digest : String} :
    opinions rules action homeDir digest ≤ Restriction.allow ↔
      ¬ ∃ rule ∈ rules, restrictiveRule rule = true ∧
        matchesAction rule.match action homeDir digest = true := by
  constructor
  · rintro h ⟨rule, hr, hres, hm⟩
    have := opinion_le_allow_iff.mp ((opinion_le_opinions hr hm).trans h)
    exact absurd (hres.symm.trans this) (by decide)
  · intro h
    refine opinions_le fun rule hr hm ↦ opinion_le_allow_iff.mpr ?_
    rw [← Bool.not_eq_true]
    exact fun hres ↦ h ⟨rule, hr, hres, hm⟩

/-- Without a grant, and with a rule that allows, an action is allowed where it is free or asked
about and no rule takes it away. -/
theorem answer_eq_allow_iff {lvl : Level} {rules : WithBot Restriction} {granted : Bool → Bool}
    (hg : ∀ exactOnly, granted exactOnly = false) (ha : Restriction.allow ≤ rules) :
    answer lvl rules granted = .allow ↔ lvl ≤ .prompt ∧ rules ≤ Restriction.allow := by
  unfold answer settled
  rw [hg]
  rcases rules_cases rules with rfl | rfl | rfl | rfl
  · exact absurd ha (by decide)
  · cases lvl <;> decide
  · cases lvl <;> decide
  · cases lvl <;> decide

variable {callId : String} {now : ℤ} {workload : ShellWorkload} {w : σ}

/-- A command stands where the profile leaves a question, unless its directory is protected. -/
theorem level_le_prompt_iff :
    level env.sys (env.action workload) (workloadContext env.homeDir now workload) ≤ .prompt ↔
      workload.authority.profile ≠ .plan ∧ ¬ (workload.authority.profile ≠ .yolo ∧
        classifyPath (posixResolve env.processCwd workload.cwd ".") .read workload.cwd
          env.homeDir ≠ []) := by
  have hmatches : protectedMatches env.sys (env.action workload)
      (workloadContext env.homeDir now workload) =
        classifyPath (posixResolve env.processCwd workload.cwd ".") .read workload.cwd
          env.homeDir := List.append_nil _
  have hprofile : profileLevel (env.action workload) (workloadContext env.homeDir now workload) =
      agentLevel workload.authority.profile false := rfl
  unfold level
  rw [hmatches, hprofile]
  by_cases hp : classifyPath (posixResolve env.processCwd workload.cwd ".") .read workload.cwd
      env.homeDir = []
  · simp only [hp, if_true, ne_eq, not_true, and_false, not_false_eq_true, and_true]
    cases workload.authority.profile <;> decide
  · simp only [hp, if_false, ne_eq, not_false_eq_true, and_true, not_not]
    change protectedLevel workload.authority.profile ≤ _ ↔ _
    cases workload.authority.profile <;> decide

theorem executes_iff_permits :
    env.executes callId now workload w = true ↔
      isShellInput ⟨workload.command, workload.argv, "."⟩ = true ∧
        (evaluate env.sys (env.action workload)
          (workloadContext env.homeDir now workload)).outcome.Permits := by
  have hname : env.pipeline.byName "run_shell" = some (shellTool env.processCwd env.explain) := rfl
  by_cases hin : isShellInput ⟨workload.command, workload.argv, "."⟩ = true
  · have hvalid : validateCall (shellTool env.processCwd env.explain).definition
        ⟨workload.command, workload.argv, "."⟩ = .ok ⟨workload.command, workload.argv, "."⟩ := by
      simp [validateCall, shellTool, hin]
    have hjudge : env.pipeline.judge (workloadInput env.homeDir callId now workload).toDecideInput =
        env.pipeline.consult (shellTool env.processCwd env.explain)
          ⟨workload.command, workload.argv, "."⟩ (workloadContext env.homeDir now workload) :=
      judge_of_valid hname hvalid
    rw [Unattended.executes, reachesWorker_execute_iff hjudge]
    exact (and_iff_right hin).symm
  · have hinvalid : validateCall (shellTool env.processCwd env.explain).definition
        ⟨workload.command, workload.argv, "."⟩ =
          .error ⟨.invalidInput, env.explain ⟨workload.command, workload.argv, "."⟩⟩ := by
      simp [validateCall, shellTool, hin]
    have hjudge : env.pipeline.judge (workloadInput env.homeDir callId now workload).toDecideInput =
        .rejected .schema (env.explain ⟨workload.command, workload.argv, "."⟩) :=
      @judge_of_invalid _ _ _ _ _ _ _ env.pipeline
        (workloadInput env.homeDir callId now workload).toDecideInput _ _ hname hinvalid
    rw [Unattended.executes, ToolPipeline.execute, hjudge]
    simp [reachesWorker, hin]

/-- The hook and the ceiling of a workload's context have nothing to say. -/
theorem restriction_workloadContext
    (h : checkCanonicalAction env.sys (env.action workload) = []) :
    (evaluate env.sys (env.action workload)
      (workloadContext env.homeDir now workload)).outcome.restriction =
      answer (level env.sys (env.action workload) (workloadContext env.homeDir now workload))
        (opinions workload.authority.rules (env.action workload) env.homeDir
          (actionDigest env.sys (env.action workload)))
        (granted env.sys (env.action workload) (workloadContext env.homeDir now workload)) := by
  have hhook : hookRestriction (workloadContext env.homeDir now workload).hookOutcome = ⊥ := rfl
  have hceiling : noManagedRestrictions.restriction (env.action workload) env.homeDir
      (actionDigest env.sys (env.action workload)) = ⊥ := by
    rw [ManagedPolicy.restriction, if_neg (fun hoff ↦ absurd hoff.2 (by decide))]
    exact managedRestriction_nil
  rw [restriction_evaluate h, hhook, sup_bot_eq]
  exact (congrArg (answer _ _ _ ⊔ ·) hceiling).trans (sup_bot_eq _)

/-- **When the command runs.** Without a grant, and with the rule that was made for it, a command is
executed unless something refuses it. -/
theorem executes_iff (hg : workload.authority.grants = [])
    (hr : preapprovalRule workload.command workload.argv ∈ workload.authority.rules) :
    env.executes callId now workload w = true ↔
      ¬ RefusedAnyway env workload workload.authority.profile workload.authority.rules := by
  have hgranted : ∀ exactOnly, granted env.sys (env.action workload)
      (workloadContext env.homeDir now workload) exactOnly = false := by
    intro exactOnly
    rw [← Bool.not_eq_true, granted_eq_true_iff]
    rintro ⟨grant, hmem, -⟩
    exact absurd (hg ▸ hmem : grant ∈ []) List.not_mem_nil
  have hallow : Restriction.allow ≤ opinions workload.authority.rules (env.action workload)
      env.homeDir (actionDigest env.sys (env.action workload)) := by
    have hmatch : matchesAction (preapprovalRule workload.command workload.argv).match
        (env.action workload) env.homeDir (actionDigest env.sys (env.action workload)) = true :=
      matches_preapprovalRule workload _ _
    rw [← opinion_preapprovalRule workload.command workload.argv]
    exact opinion_le_opinions hr hmatch
  rw [executes_iff_permits, DecisionOutcome.permits_iff]
  by_cases hc : checkCanonicalAction env.sys (env.action workload) = []
  · rw [restriction_workloadContext hc, answer_eq_allow_iff hgranted hallow, level_le_prompt_iff,
      opinions_le_allow_iff]
    constructor
    · rintro ⟨hin, ⟨hplan, hprotected⟩, hrule⟩ (h | h | h | h | h)
      · exact absurd (hin.symm.trans h) (by decide)
      · exact h hc
      · exact hplan h
      · exact hprotected h
      · exact hrule h
    · intro h
      refine ⟨?_, ⟨fun hp ↦ h (.inr (.inr (.inl hp))),
        fun hp ↦ h (.inr (.inr (.inr (.inl hp))))⟩, fun hr ↦ h (.inr (.inr (.inr (.inr hr))))⟩
      rw [← Bool.not_eq_false]
      exact fun hin ↦ h (.inl hin)
  · have hdeny := @outcome_of_not_canonical _ _ (workloadContext env.homeDir now workload) hc
    rw [hdeny]
    refine iff_of_false (fun h ↦ absurd h.2 (by decide)) ?_
    exact fun h ↦ h (.inr (.inl hc))

end Executes

/-! ## The supervisor and the background -/

def schedulerActor : Actor := ⟨.system, "act_scheduler", none⟩

/-- The key of one firing of a job in the ledger. -/
def cronFireKey (jobId : String) (instant : ℤ) : String :=
  "cron.v1:" ++ jobId ++ ":" ++ toString instant

/-- A job that is due, and what its firing draws. -/
structure Firing where
  jobId : String
  threadId : String
  workloadTag : String
  scheduledInstant : ℤ
  turnId : String
  correlationId : String
  sideEffectId : String
  intentDraw : Draw
  startedDraw : Draw

/-- What a firing appends before it runs anything. -/
def Firing.calls (f : Firing) (permissionProfile : PermissionProfile) : List AppendCall :=
  let call (payload : EventPayload) (draw : Draw) : AppendCall :=
    { input :=
        { threadId := f.threadId, payload, actor := schedulerActor
          correlationId := f.correlationId, causationId := none, turnId := some f.turnId
          itemId := none, permissionProfile }
      draw }
  [call (.sideEffectIntent
      { sideEffectId := f.sideEffectId
        idempotencyKey := cronFireKey f.jobId f.scheduledInstant
        kind := .other
        destructive := false
        normalizedAction := "cron-fire:" ++ f.jobId ++ ":" ++ f.workloadTag }) f.intentDraw,
    call (.sideEffectStarted f.sideEffectId) f.startedDraw]

/-- The ledger lets a firing run: nothing is in its way, and its rows are written. -/
def admitsFiring (r : Redactor) (f : Firing) (permissionProfile : PermissionProfile)
    (s : EventStore) : Bool :=
  (s.mayExecute (cronFireKey f.jobId f.scheduledInstant)).allowed &&
    (appendAll r (f.calls permissionProfile) s).1.all Except.isOk

section Bound

variable {ε σ : Type} (env : Unattended ε σ) (r : Redactor)

/-- The supervisor fires a job, and its command is executed. -/
def Unattended.fires (f : Firing) (s : EventStore) (callId : String) (now : ℤ)
    (workload : ShellWorkload) (w : σ) : Bool :=
  admitsFiring r f workload.authority.profile s && env.executes callId now workload w

/-- The manager starts a task, and its command is executed. -/
def Unattended.starts (ctx : SinkContext) (taskId : String) (category : BackgroundCategory)
    (sideEffectId : String) (draw : Draw) (s : EventStore) (callId : String) (now : ℤ)
    (workload : ShellWorkload) (w : σ) : Bool :=
  (recordStart r ctx taskId category sideEffectId draw s).1.isOk &&
    env.executes callId now workload w

/-- The decision on the workload under a ceiling. -/
def Unattended.decisionUnder (now : ℤ) (workload : ShellWorkload) (m : ManagedPolicy) :
    PolicyDecision :=
  evaluate env.sys (env.action workload)
    { workloadContext env.homeDir now workload with managedPolicy := m }

/-- A rule of a ceiling matches the action of the workload. -/
def Unattended.meets (workload : ShellWorkload) (rule : ManagedRule) : Bool :=
  rule.applies (env.action workload) env.homeDir (actionDigest env.sys (env.action workload))

/-- The ceiling forbids the workload: it denies it by one of its rules, or one of them asks. -/
def ForbiddenBy (now : ℤ) (workload : ShellWorkload) (m : ManagedPolicy) : Prop :=
  ((env.decisionUnder now workload m).outcome = .deny ∧
      ∃ rule ∈ m.rules, rule.effect = .deny ∧ env.meets workload rule = true) ∨
    ∃ rule ∈ m.rules, rule.effect = .ask ∧ env.meets workload rule = true

variable {env} {now : ℤ} {workload : ShellWorkload} {m : ManagedPolicy}

/-- A rule of the ceiling that denies decides. -/
theorem decisionUnder_of_deny {rule : ManagedRule} (hr : rule ∈ m.rules) (he : rule.effect = .deny)
    (hm : env.meets workload rule = true) :
    (env.decisionUnder now workload m).outcome = .deny := by
  by_cases hc : checkCanonicalAction env.sys (env.action workload) = []
  · have hle : Restriction.deny ≤ m.restriction (env.action workload) env.homeDir
        (actionDigest env.sys (env.action workload)) := by
      have hkind : (env.action workload).kind ≠ .network := ActionKind.noConfusion
      rw [ManagedPolicy.restriction, if_neg (fun h ↦ hkind h.1)]
      have hrule := restriction_le_managedRestriction hr hm
      rwa [he] at hrule
    rw [← DecisionOutcome.restriction_eq_deny_iff, Unattended.decisionUnder,
      restriction_evaluate hc]
    exact le_antisymm (Restriction.le_deny _) (hle.trans le_sup_right)
  · exact outcome_of_not_canonical hc

/-- A ceiling forbids a workload with every rule that matches. -/
theorem forbiddenBy_iff :
    ForbiddenBy env now workload m ↔ ∃ rule ∈ m.rules, env.meets workload rule = true := by
  constructor
  · rintro (⟨-, rule, hr, -, hm⟩ | ⟨rule, hr, -, hm⟩)
    · exact ⟨rule, hr, hm⟩
    · exact ⟨rule, hr, hm⟩
  · rintro ⟨rule, hr, hm⟩
    cases he : rule.effect with
    | deny => exact .inl ⟨decisionUnder_of_deny hr he hm, rule, hr, he, hm⟩
    | ask => exact .inr ⟨rule, hr, he, hm⟩

/-- The rules of a list that take away are not more for the rule that allows the command. -/
theorem ruleRefuses_append_preapproval {rules : List PolicyRule} {command : String}
    {argv : List String} :
    RuleRefuses env workload (rules ++ [preapprovalRule command argv]) ↔
      RuleRefuses env workload rules := by
  constructor
  · rintro ⟨rule, hr, hres, hm⟩
    rcases List.mem_append.mp hr with hr | hr
    · exact ⟨rule, hr, hres, hm⟩
    · rw [List.mem_singleton.mp hr] at hres
      rcases of_decide_eq_true hres with he | he <;> cases he
  · rintro ⟨rule, hr, hres, hm⟩
    exact ⟨rule, List.mem_append_left _ hr, hres, hm⟩

/-- A ceiling that is narrowed keeps its rules, and gets no others. -/
theorem mem_firedAuthority_rules_iff {ceiling : Authority} {rule : PolicyRule} :
    rule ∈ (firedAuthority ceiling m).rules ↔ rule ∈ ceiling.rules := by
  rw [firedAuthority, intersect, List.mem_append]
  constructor
  · rintro (h | h)
    · exact h
    · exact (List.mem_filter.mp h).1
  · exact .inl

theorem ruleRefuses_congr {rules rules' : List PolicyRule}
    (h : ∀ rule, rule ∈ rules ↔ rule ∈ rules') :
    RuleRefuses env workload rules ↔ RuleRefuses env workload rules' := by
  simp only [RuleRefuses, h]

theorem refusedAnyway_congr {profile : PermissionProfile} {rules rules' : List PolicyRule}
    (h : RuleRefuses env workload rules ↔ RuleRefuses env workload rules') :
    RefusedAnyway env workload profile rules ↔ RefusedAnyway env workload profile rules' := by
  simp only [RefusedAnyway, h]

variable {r} {run : RunAuthority} {command : String} {argv : List String} {w : σ} {callId : String}

/-- A background task is executed unless something but a managed rule refuses it. -/
theorem executes_startedWorkload_iff {cwd : String} :
    env.executes callId now (startedWorkload run command argv cwd) w = true ↔
      ¬ RefusedAnyway env (startedWorkload run command argv cwd) run.profile run.rules := by
  have hmem : preapprovalRule command argv ∈
      (startedWorkload run command argv cwd).authority.rules :=
    List.mem_append_right run.rules (List.mem_singleton_self _)
  have hexec := @executes_iff _ _ env callId now (startedWorkload run command argv cwd) w rfl hmem
  exact hexec.trans (not_congr (refusedAnyway_congr ruleRefuses_append_preapproval))

/-- The captured ceiling is as narrow as the profile of the time. -/
theorem profile_firedWorkload {addedCwd firedCwd : String} {managed : ManagedPolicy} :
    (firedWorkload run command argv addedCwd firedCwd managed).authority.profile =
      leastProfile run.profile managed.maxProfile := by
  change leastProfile (leastProfile run.profile run.profile) managed.maxProfile = _
  rw [leastProfile_eq_min run.profile, min_self]

/-- A job that fires is executed unless something but a managed rule refuses it, under the smaller of
the profiles. -/
theorem executes_firedWorkload_iff {addedCwd firedCwd : String} {managed : ManagedPolicy} :
    env.executes callId now (firedWorkload run command argv addedCwd firedCwd managed) w = true ↔
      ¬ RefusedAnyway env (firedWorkload run command argv addedCwd firedCwd managed)
        (leastProfile run.profile managed.maxProfile) run.rules := by
  have hmem : preapprovalRule command argv ∈
      (firedWorkload run command argv addedCwd firedCwd managed).authority.rules :=
    mem_firedAuthority_rules_iff.mpr
      (List.mem_append_right run.rules (List.mem_singleton_self _))
  have hgrants : (firedWorkload run command argv addedCwd firedCwd managed).authority.grants = [] :=
    rfl
  have hexec := @executes_iff _ _ env callId now
    (firedWorkload run command argv addedCwd firedCwd managed) w hgrants hmem
  rw [profile_firedWorkload] at hexec
  refine hexec.trans (not_congr (refusedAnyway_congr ?_))
  exact (ruleRefuses_congr fun _ ↦ mem_firedAuthority_rules_iff).trans
    ruleRefuses_append_preapproval

/-- **What binds unattended work.** A ceiling that forbids a command keeps it from being executed
exactly when no rule of the ceiling matches, or the ledger does not let it run, or it is refused
anyway: for a job that fires and for a task that is started. -/
theorem unattended_bound_iff (env : Unattended ε σ) (r : Redactor) (run : RunAuthority)
    (command : String) (argv : List String) (addedCwd firedCwd : String) (managed : ManagedPolicy)
    (f : Firing) (ctx : SinkContext) (taskId : String) (category : BackgroundCategory)
    (sideEffectId : String) (draw : Draw) (s : EventStore) (callId : String) (now : ℤ) (w : σ) :
    ((ForbiddenBy env now (firedWorkload run command argv addedCwd firedCwd managed) managed →
        env.fires r f s callId now (firedWorkload run command argv addedCwd firedCwd managed) w =
          false) ↔
      (∀ rule ∈ managed.rules,
          env.meets (firedWorkload run command argv addedCwd firedCwd managed) rule = false) ∨
        admitsFiring r f (leastProfile run.profile managed.maxProfile) s = false ∨
        RefusedAnyway env (firedWorkload run command argv addedCwd firedCwd managed)
          (leastProfile run.profile managed.maxProfile) run.rules) ∧
    ((ForbiddenBy env now (startedWorkload run command argv firedCwd) run.managedPolicy →
        env.starts r ctx taskId category sideEffectId draw s callId now
          (startedWorkload run command argv firedCwd) w = false) ↔
      (∀ rule ∈ run.managedPolicy.rules,
          env.meets (startedWorkload run command argv firedCwd) rule = false) ∨
        (recordStart r ctx taskId category sideEffectId draw s).1.isOk = false ∨
        RefusedAnyway env (startedWorkload run command argv firedCwd) run.profile run.rules) := by
  have hboth : ∀ {F R : Prop} {a e : Bool}, (e = true ↔ ¬ R) →
      ((F → (a && e) = false) ↔ ¬ F ∨ a = false ∨ R) := by
    intro F R a e he
    rw [Bool.and_eq_false_iff, ← imp_iff_not_or]
    refine imp_congr_right fun _ ↦ or_congr_right ?_
    rw [← Bool.not_eq_true, he, not_not]
  have hmeets : ∀ {workload : ShellWorkload} {m : ManagedPolicy},
      ¬ ForbiddenBy env now workload m ↔ ∀ rule ∈ m.rules, env.meets workload rule = false := by
    intro workload m
    rw [forbiddenBy_iff]
    simp only [not_exists, not_and, Bool.not_eq_true]
  constructor
  · rw [← hmeets, Unattended.fires, profile_firedWorkload]
    exact hboth executes_firedWorkload_iff
  · rw [← hmeets, Unattended.starts]
    exact hboth executes_startedWorkload_iff

end Bound

/-! ### A denial that does not bind -/

/-- Unattended work over a worker that answers every request. -/
def exampleUnattended : Unattended Empty Unit where
  sys := examplePlatform
  processCwd := "/repo"
  homeDir := "/home/u"
  explain _ := "invalid arguments"
  run _ w := (.ok (.ok ⟨some 0, some "", none⟩), w)

/-- The authority under a configuration that denies a directory. -/
def vaultAuthority : RunAuthority where
  managedPolicy :=
    { noManagedRestrictions with
      rules := [⟨"config.deny", .deny, { ActionMatcher.empty with paths := some ["/repo/vault"] },
        "denied by configuration"⟩] }
  rules := []
  profile := .ask
  isolation := .disabled
  networkAllowed := true

def vaultFiring : Firing where
  jobId := "job_1"
  threadId := "thr_000001"
  workloadTag := "clean"
  scheduledInstant := 0
  turnId := "trn_000001"
  correlationId := "cor_000001"
  sideEffectId := "sfx_000001"
  intentDraw := { id := "evt_000001", now := 1 }
  startedDraw := { id := "evt_000002", now := 1 }

def vaultSink : SinkContext :=
  ⟨"thr_background0", "trn_000001", ⟨.user, "act_user01", none⟩, "cor_000001", .ask⟩

theorem spared_vault (access : AccessKind) (workspaceRoot : String) :
    classifyPath "/repo/vault" access workspaceRoot "/home/u" = [] :=
  classifyPath_eq_nil rfl rfl (by decide +kernel) access workspaceRoot

/-- Nothing but the managed rule is against `make clean` in the vault. -/
theorem not_refusedAnyway_vault (authority : Authority) :
    ¬ RefusedAnyway exampleUnattended ⟨"make", ["clean"], "/repo/vault", authority⟩ .ask [] := by
  have hcwd : posixResolve "/repo" "/repo/vault" "." = "/repo/vault" := by decide +kernel
  have hcanonical : checkCanonicalAction examplePlatform
      (.shell (commandLine "make" ["clean"]) ["make", "clean"] "/repo/vault") = [] := by
    decide +kernel
  rintro (hinput | hform | hplan | ⟨-, hfound⟩ | ⟨rule, hrule, -⟩)
  · have hshell : isShellInput ⟨"make", ["clean"], "."⟩ = true := by decide
    exact absurd (hinput.symm.trans hshell) (by decide)
  · exact hform (by
      rw [Unattended.action, shellAction, show exampleUnattended.processCwd = "/repo" from rfl, hcwd]
      exact hcanonical)
  · cases hplan
  · exact hfound (by
      rw [show exampleUnattended.processCwd = "/repo" from rfl, hcwd]
      exact spared_vault _ _)
  · cases hrule

/-- In the directory that the configuration denies, the job fires and the task starts. -/
theorem not_unattended_bound_vault :
    ¬ ((ForbiddenBy exampleUnattended 1
          (firedWorkload vaultAuthority "make" ["clean"] "/repo/vault" "/repo/vault"
            vaultAuthority.managedPolicy) vaultAuthority.managedPolicy →
        exampleUnattended.fires .none vaultFiring .empty "bg_1" 1
          (firedWorkload vaultAuthority "make" ["clean"] "/repo/vault" "/repo/vault"
            vaultAuthority.managedPolicy) () = false) ∨
      (ForbiddenBy exampleUnattended 1
          (startedWorkload vaultAuthority "make" ["clean"] "/repo/vault")
          vaultAuthority.managedPolicy →
        exampleUnattended.starts .none vaultSink "bgt_1" .localShell "sfx_000001"
          { id := "evt_000001", now := 1 } .empty "bg_1" 1
          (startedWorkload vaultAuthority "make" ["clean"] "/repo/vault") () = false)) := by
  have hfires : exampleUnattended.fires .none vaultFiring .empty "bg_1" 1
      (firedWorkload vaultAuthority "make" ["clean"] "/repo/vault" "/repo/vault"
        vaultAuthority.managedPolicy) () = true :=
    (Bool.and_eq_true _ _).mpr
      ⟨by decide +kernel, executes_firedWorkload_iff.mpr (not_refusedAnyway_vault _)⟩
  have hstarts : exampleUnattended.starts .none vaultSink "bgt_1" .localShell "sfx_000001"
      { id := "evt_000001", now := 1 } .empty "bg_1" 1
      (startedWorkload vaultAuthority "make" ["clean"] "/repo/vault") () = true :=
    (Bool.and_eq_true _ _).mpr
      ⟨by decide +kernel, executes_startedWorkload_iff.mpr (not_refusedAnyway_vault _)⟩
  -- The rule matches in both directories, and a rule that matches forbids.
  have hfired : ForbiddenBy exampleUnattended 1
      (firedWorkload vaultAuthority "make" ["clean"] "/repo/vault" "/repo/vault"
        vaultAuthority.managedPolicy) vaultAuthority.managedPolicy :=
    forbiddenBy_iff.mpr ⟨_, List.mem_singleton_self _, by decide +kernel⟩
  have hstarted : ForbiddenBy exampleUnattended 1
      (startedWorkload vaultAuthority "make" ["clean"] "/repo/vault")
      vaultAuthority.managedPolicy :=
    forbiddenBy_iff.mpr ⟨_, List.mem_singleton_self _, by decide +kernel⟩
  rintro (h | h)
  · exact absurd (hfires.symm.trans (h hfired)) (by decide)
  · exact absurd (hstarts.symm.trans (h hstarted)) (by decide)

end QwenHarness.Tools
