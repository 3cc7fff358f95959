import QwenHarness.Tools.Executors

/-!
# What a `once` grant pays for

One store of grants is shared by every executor of a run. Between the decision about a call and its
end other calls run, approvals arrive, and other decisions read the same grants. Beside the store,
the state of a run keeps which executions wait and which have ended, each with the action it is
about, whether policy allowed it only because of a `once` grant, and whether it spent one.

An execution that rests on a `once` grant is *owed* as long as it has spent none. Only the pipeline
ever spends, and only once the worker has answered, so an execution may stay owed for ever.
-/

namespace QwenHarness.Tools

open Policy

/-! ## The grants for an action -/

/-- A `once` grant for the action, spent or not. -/
def isOnceFor (digest : String) (g : Grant) : Bool :=
  decide (g.scope = .once ∧ g.actionDigest = some digest)

/-- A `once` grant for the action that is left. -/
def isUnspentFor (digest : String) (g : Grant) : Bool :=
  decide (g.scope = .once ∧ g.actionDigest = some digest ∧ g.usedAt = none)

namespace GrantStore

/-- How many `once` grants were minted for an action. A grant stays in the store. -/
def mintedOnce (store : GrantStore) (digest : String) : ℕ := store.grants.countP (isOnceFor digest)

def unspentOnce (store : GrantStore) (digest : String) : ℕ :=
  store.grants.countP (isUnspentFor digest)

variable {store : GrantStore} {digest d id grantedBy : String} {scope : GrantScope} {now : ℤ}

/-- A new grant is an unspent one. -/
theorem isUnspentFor_minted :
    isUnspentFor d (minted id digest scope now grantedBy) =
      isOnceFor d (minted id digest scope now grantedBy) := by
  rw [isUnspentFor, isOnceFor, decide_eq_decide, ← and_assoc]
  exact and_iff_left rfl

theorem mintedOnce_add :
    (store.add id digest scope now grantedBy).mintedOnce d = store.mintedOnce d +
      if isOnceFor d (minted id digest scope now grantedBy) = true then 1 else 0 := by
  rw [mintedOnce, add, List.countP_append, List.countP_singleton]
  rfl

theorem unspentOnce_add :
    (store.add id digest scope now grantedBy).unspentOnce d = store.unspentOnce d +
      if isOnceFor d (minted id digest scope now grantedBy) = true then 1 else 0 := by
  rw [unspentOnce, add, List.countP_append, List.countP_singleton, isUnspentFor_minted]
  rfl

/-- Spending changes neither the scope of a grant nor its action. -/
theorem countP_consumeGrant_once (grants : List Grant) :
    (consumeGrant grants id now).countP (isOnceFor d) = grants.countP (isOnceFor d) := by
  rw [consumeGrant, List.countP_map]
  refine List.countP_congr fun g _ ↦ ?_
  rw [Function.comp_apply]
  split <;> exact Iff.rfl

theorem isUnspentFor_of_spent {g : Grant}
    (h : isUnspentFor d (if g.id = id ∧ g.scope = .once then { g with usedAt := some now } else g)
      = true) : isUnspentFor d g = true ∧ ¬ (g.id = id ∧ g.scope = .once) := by
  split at h
  · obtain ⟨-, -, hused⟩ := of_decide_eq_true h
    cases hused
  · exact ⟨h, ‹_›⟩

theorem countP_consumeGrant_le (grants : List Grant) :
    (consumeGrant grants id now).countP (isUnspentFor d) ≤ grants.countP (isUnspentFor d) := by
  rw [consumeGrant, List.countP_map]
  exact List.countP_mono_left fun _ _ h ↦ (isUnspentFor_of_spent h).1

/-- Spending a grant that is there leaves one less. -/
theorem countP_consumeGrant_lt {grants : List Grant} {g : Grant} (hg : g ∈ grants)
    (hu : isUnspentFor d g = true) :
    (consumeGrant grants g.id now).countP (isUnspentFor d) < grants.countP (isUnspentFor d) := by
  obtain ⟨l₁, l₂, rfl⟩ := List.append_of_mem hg
  obtain ⟨hs, -, -⟩ := of_decide_eq_true hu
  have h₁ := @countP_consumeGrant_le d g.id now l₁
  have h₂ := @countP_consumeGrant_le d g.id now l₂
  have hmap : consumeGrant (l₁ ++ g :: l₂) g.id now =
      consumeGrant l₁ g.id now ++ { g with usedAt := some now } :: consumeGrant l₂ g.id now := by
    simp [consumeGrant, hs]
  have hnew : ¬ isUnspentFor d { g with usedAt := some now } = true := by
    intro h
    obtain ⟨-, -, hused⟩ := of_decide_eq_true h
    cases hused
  rw [hmap, List.countP_append, List.countP_append, List.countP_cons_of_neg hnew,
    List.countP_cons_of_pos hu]
  omega

theorem mintedOnce_consume : (store.consume digest now).mintedOnce d = store.mintedOnce d := by
  rw [consume]
  split
  · exact countP_consumeGrant_once _
  · rfl

theorem unspentOnce_consume_le :
    (store.consume digest now).unspentOnce d ≤ store.unspentOnce d := by
  rw [consume]
  split
  · exact countP_consumeGrant_le _
  · exact le_rfl

/-- Where a grant is left, spending takes one. -/
theorem unspentOnce_consume (h : store.unspentOnce d ≠ 0) :
    (store.consume d now).unspentOnce d < store.unspentOnce d := by
  rw [consume]
  split
  · rename_i g hfind
    exact countP_consumeGrant_lt (List.mem_of_find?_eq_some hfind) (List.find?_some hfind)
  · rename_i hfind
    refine absurd (List.countP_eq_zero.mpr fun g hg ↦ ?_) h
    exact List.find?_eq_none.mp hfind g hg

end GrantStore

/-! ## Decisions that rest on a `once` grant -/

section Rests

variable (sys : Platform) (action : NormalizedAction) (ctx : PolicyContext)

def withoutOnce (ctx : PolicyContext) : PolicyContext :=
  { ctx with grants := ctx.grants.filter fun g ↦ decide (g.scope ≠ .once) }

/-- Policy allows the action, and would not without the `once` grants. -/
def OnlyByOnce : Prop :=
  (evaluate sys action ctx).outcome.Permits ∧
    ¬ (evaluate sys action (withoutOnce ctx)).outcome.Permits

instance (o : DecisionOutcome) : Decidable o.Permits := inferInstanceAs (Decidable (_ ∨ _))

instance : Decidable (OnlyByOnce sys action ctx) := inferInstanceAs (Decidable (_ ∧ _))

end Rests

/-! ## Runs -/

/-- An execution as the books have it. -/
structure Execution where
  digest : String
  onlyOnce : Bool
deriving DecidableEq, Repr

/-- What policy says about an action, for the books. -/
def Execution.of (sys : Platform) (action : NormalizedAction) (ctx : PolicyContext) : Execution :=
  ⟨actionDigest sys action, decide (OnlyByOnce sys action ctx)⟩

def Execution.restsOn (e : Execution) (digest : String) : Bool :=
  e.onlyOnce && decide (e.digest = digest)

/-- An execution that is over. -/
structure Ended where
  execution : Execution
  spent : Bool
deriving DecidableEq, Repr

structure Session (ρ γ : Type) where
  store : GrantStore
  /-- The calls of this process that policy or a person let pass and that have not been run. -/
  cleared : List (NormalizedToolCall × Execution)
  waiting : List (Flight ρ γ × Execution)
  ended : List Ended

namespace Session

variable {ρ γ : Type}

def start : Session ρ γ := ⟨⟨[]⟩, [], [], []⟩

/-- The context of a decision: the grants are read from the store. -/
def context (s : Session ρ γ) (ctx : PolicyContext) : PolicyContext :=
  { ctx with grants := s.store.grants }

/-- How many executions of an action policy allowed only because of a `once` grant. -/
def charged (s : Session ρ γ) (digest : String) : ℕ :=
  s.waiting.countP (·.2.restsOn digest) + s.ended.countP (·.execution.restsOn digest)

/-- How many of them have not spent one. -/
def owed (s : Session ρ γ) (digest : String) : ℕ :=
  s.waiting.countP (·.2.restsOn digest) +
    s.ended.countP fun t ↦ t.execution.restsOn digest && !t.spent

def paid (s : Session ρ γ) (digest : String) : ℕ :=
  s.ended.countP fun t ↦ t.execution.restsOn digest && t.spent

theorem charged_eq (s : Session ρ γ) (d : String) : s.charged d = s.owed d + s.paid d := by
  have hended : s.ended.countP (·.execution.restsOn d) =
      (s.ended.countP fun t ↦ t.execution.restsOn d && !t.spent) + s.paid d := by
    rw [paid]
    induction s.ended with
    | nil => rfl
    | cons t ts ih =>
      rw [List.countP_cons, List.countP_cons, List.countP_cons, ih]
      cases t.execution.restsOn d <;> cases t.spent <;> simp <;> omega
  rw [charged, owed, hended]
  omega

end Session

variable {ι ρ γ ω ε σ β : Type}

/-- What may happen in a run, with the execution it starts. A decision reads the store as it is; an
answer may come for any call that waits. -/
inductive Step (x : Executors ι ρ γ ω ε σ β) :
    Session ρ γ → Option Execution → Session ρ γ → Prop
  /-- A person says yes. -/
  | approve (s : Session ρ γ) (id digest : String) (scope : GrantScope) (now : ℤ)
      (grantedBy : String) :
      Step x s none { s with store := s.store.add id digest scope now grantedBy }
  /-- A tool of this process is evaluated, and not denied. Where policy asks, a person is asked. -/
  | clear (s : Session ρ γ) (p : InProcessExecutor) (ctx : PolicyContext)
      (call : NormalizedToolCall) (route : x.pick call.toolName = .inProcess)
      (present : x.inProcess = some p)
      (passes : (p.evaluate (s.context ctx) call).status ≠ .deny) :
      Step x s none { s with
        cleared := s.cleared ++ [(call, Execution.of p.sys (p.actionOf call) (s.context ctx))] }
  | refuse (s : Session ρ γ) (ctx : PolicyContext) (start later : ℤ) (call : NormalizedToolCall)
      (result : ToolExecutionResult)
      (begun : x.begin (s.context ctx) start later call = .refused result) : Step x s none s
  | startWorker (s : Session ρ γ) (ctx : PolicyContext) (start later : ℤ)
      (call : NormalizedToolCall) (f : WorkerFlight ρ γ)
      (begun : x.begin (s.context ctx) start later call = .waiting (.worker f)) :
      Step x s (some (Execution.of x.pipeline.sys f.action (s.context ctx)))
        { s with waiting := s.waiting ++
            [(.worker f, Execution.of x.pipeline.sys f.action (s.context ctx))] }
  | startServer (s : Session ρ γ) (ctx : PolicyContext) (start later : ℤ)
      (call : NormalizedToolCall) (m : McpExecutor) (f : ServerFlight)
      (begun : x.begin (s.context ctx) start later call = .waiting (.server m f)) :
      Step x s (some (Execution.of m.sys f.action (s.context ctx)))
        { s with waiting := s.waiting ++
            [(.server m f, Execution.of m.sys f.action (s.context ctx))] }
  | startInProcess (s : Session ρ γ) (ctx : PolicyContext) (start later : ℤ)
      (call : NormalizedToolCall) (f : InProcessFlight) (e : Execution)
      (l₁ l₂ : List (NormalizedToolCall × Execution))
      (cleared : s.cleared = l₁ ++ (call, e) :: l₂)
      (begun : x.begin (s.context ctx) start later call = .waiting (.inProcess f)) :
      Step x s (some e)
        { s with cleared := l₁ ++ l₂, waiting := s.waiting ++ [(.inProcess f, e)] }
  | runInProcess (s : Session ρ γ) (ctx : PolicyContext) (start later : ℤ)
      (call : NormalizedToolCall) (result : ToolExecutionResult) (e : Execution)
      (l₁ l₂ : List (NormalizedToolCall × Execution))
      (cleared : s.cleared = l₁ ++ (call, e) :: l₂)
      (begun : x.begin (s.context ctx) start later call = .done result) :
      Step x s (some e) { s with cleared := l₁ ++ l₂, ended := s.ended ++ [⟨e, false⟩] }
  | answerWorker (s : Session ρ γ) (f : WorkerFlight ρ γ) (e : Execution)
      (l₁ l₂ : List (Flight ρ γ × Execution)) (answer : Except Thrown (ToolResponse β))
      (later now : ℤ) (waits : s.waiting = l₁ ++ (.worker f, e) :: l₂) :
      Step x s none { s with
        store := (finishPipeline x.wording f answer later now s.store).2
        waiting := l₁ ++ l₂
        ended := s.ended ++ [⟨e, answer.isOk⟩] }
  | answerServer (s : Session ρ γ) (m : McpExecutor) (f : ServerFlight) (e : Execution)
      (l₁ l₂ : List (Flight ρ γ × Execution)) (waits : s.waiting = l₁ ++ (.server m f, e) :: l₂) :
      Step x s none { s with waiting := l₁ ++ l₂, ended := s.ended ++ [⟨e, false⟩] }
  | answerInProcess (s : Session ρ γ) (f : InProcessFlight) (e : Execution)
      (l₁ l₂ : List (Flight ρ γ × Execution)) (waits : s.waiting = l₁ ++ (.inProcess f, e) :: l₂) :
      Step x s none { s with waiting := l₁ ++ l₂, ended := s.ended ++ [⟨e, false⟩] }

/-- The states of the runs all of whose starts meet a condition. -/
inductive Reach (x : Executors ι ρ γ ω ε σ β) (ok : Session ρ γ → Execution → Prop) :
    Session ρ γ → Prop
  | start : Reach x ok .start
  | step {s s' : Session ρ γ} {started : Option Execution} (reach : Reach x ok s)
      (step : Step x s started s') (meets : ∀ e ∈ started, ok s e) : Reach x ok s'

/-! ## What every run keeps -/

/-- Fewer executions are owed a `once` grant than there are left. -/
def Affordable {ρ γ : Type} (s : Session ρ γ) (e : Execution) : Prop :=
  e.onlyOnce = true → s.owed e.digest < s.store.unspentOnce e.digest

/-- Every execution is paid for or can still be, and what waits at the worker will spend a grant for
the action it is about. -/
structure Solvent {ρ γ : Type} (s : Session ρ γ) : Prop where
  charged_le (d : String) : s.charged d ≤ s.store.mintedOnce d
  paid_le (d : String) : s.paid d + s.store.unspentOnce d ≤ s.store.mintedOnce d
  spends (f : WorkerFlight ρ γ) (e : Execution) (h : (.worker f, e) ∈ s.waiting) :
    f.actionDigest = e.digest

section Kept

variable {x : Executors ι ρ γ ω ε σ β} {s s' : Session ρ γ} {e : Execution} {d : String}

theorem solvent_start : Solvent (.start : Session ρ γ) where
  charged_le _ := le_rfl
  paid_le _ := le_rfl
  spends _ _ h := absurd h List.not_mem_nil

/-- What the pipeline approves carries the digest of its action. -/
theorem digest_of_judge {pipeline : ToolPipeline Arguments ι ρ γ ω ε σ}
    {input : DecideInput Arguments} {action : NormalizedAction}
    {digest description reason source : String} {tool : BuiltinTool Arguments ι ρ} {args : ι}
    (h : pipeline.judge input = .approved action digest description reason source tool args) :
    digest = actionDigest pipeline.sys action := by
  rcases hb : pipeline.byName input.toolName with - | tool'
  · rw [judge_of_unknown hb] at h
    cases h
  · rcases hv : validateCall ((pipeline.registry input.toolName).getD tool'.definition)
      input.rawArguments with failure | args'
    · rw [judge_of_invalid hb hv] at h
      cases h
    · rw [judge_of_valid hb hv, ToolPipeline.consult] at h
      split at h
      · cases h
      · cases h
      · cases h
        exact actionDigest_evaluate _ _ _

/-- The grant a worker's answer spends is for the action policy was asked about. -/
theorem actionDigest_of_beginPipeline {pipeline : ToolPipeline Arguments ι ρ γ ω ε σ} {grant : γ}
    {isolation : IsolationMode} {ctx : PolicyContext} {start later : ℤ} {call : NormalizedToolCall}
    {f : WorkerFlight ρ γ}
    (h : beginPipeline pipeline grant isolation ctx start later call = .waiting f) :
    f.actionDigest = actionDigest pipeline.sys f.action := by
  unfold beginPipeline at h
  split at h
  · cases h
  · cases h
  · cases h
  · cases h
    exact digest_of_judge ‹_›

theorem exists_of_map_eq_waiting {φ ψ : Type} {begun : Begun φ} {g : φ → ψ} {flight : ψ}
    (h : begun.map g = .waiting flight) : ∃ f, begun = .waiting f ∧ g f = flight := by
  cases begun with
  | refused result => cases h
  | done result => cases h
  | waiting f => exact ⟨f, rfl, Begun.waiting.inj h⟩

theorem beginPipeline_of_begin {ctx : PolicyContext} {start later : ℤ} {call : NormalizedToolCall}
    {f : WorkerFlight ρ γ} (h : x.begin ctx start later call = .waiting (.worker f)) :
    beginPipeline x.pipeline x.grant x.isolation ctx start later call = .waiting f := by
  rw [Executors.begin] at h
  split at h
  all_goals obtain ⟨f', hf, hflight⟩ := exists_of_map_eq_waiting h
  · cases hflight
  · cases hflight
  · cases hflight
    exact hf

/-- An execution that ends stays counted. -/
theorem charged_ended {store : GrantStore} {cleared : List (NormalizedToolCall × Execution)}
    {flight : Flight ρ γ} {spent : Bool} {l₁ l₂ : List (Flight ρ γ × Execution)}
    (waits : s.waiting = l₁ ++ (flight, e) :: l₂) :
    (⟨store, cleared, l₁ ++ l₂, s.ended ++ [⟨e, spent⟩]⟩ : Session ρ γ).charged d =
      s.charged d := by
  rw [Session.charged, Session.charged, waits]
  dsimp only
  rw [List.countP_append, List.countP_append, List.countP_append, List.countP_singleton,
    List.countP_cons]
  dsimp only
  omega

theorem paid_ended {store : GrantStore} {cleared : List (NormalizedToolCall × Execution)}
    {waiting : List (Flight ρ γ × Execution)} {spent : Bool} :
    (⟨store, cleared, waiting, s.ended ++ [⟨e, spent⟩]⟩ : Session ρ γ).paid d =
      s.paid d + if (e.restsOn d && spent) = true then 1 else 0 := by
  rw [Session.paid, Session.paid, List.countP_append, List.countP_singleton]

/-- What can still be paid for can be started. -/
theorem Solvent.lt_of_affordable (hs : Solvent s) (ha : Affordable s e)
    (hrests : e.restsOn d = true) : s.charged d < s.store.mintedOnce d := by
  obtain ⟨honly, hd⟩ := Bool.and_eq_true_iff.mp hrests
  have hd : e.digest = d := of_decide_eq_true hd
  have howed := ha honly
  have hpaid := hs.paid_le d
  have hcharged := s.charged_eq d
  rw [hd] at howed
  omega

/-- An execution that starts is charged. -/
theorem Solvent.start (hs : Solvent s) (ha : Affordable s e)
    {cleared : List (NormalizedToolCall × Execution)} {flight : Flight ρ γ}
    (hspends : ∀ f, flight = .worker f → f.actionDigest = e.digest) :
    Solvent ⟨s.store, cleared, s.waiting ++ [(flight, e)], s.ended⟩ where
  charged_le d := by
    have hle := hs.charged_le d
    have hcharged : (⟨s.store, cleared, s.waiting ++ [(flight, e)], s.ended⟩ :
        Session ρ γ).charged d = s.charged d + if e.restsOn d = true then 1 else 0 := by
      rw [Session.charged, Session.charged]
      dsimp only
      rw [List.countP_append, List.countP_singleton]
      dsimp only
      omega
    rw [hcharged]
    split
    · exact hs.lt_of_affordable ha ‹_›
    · exact hle
  paid_le := hs.paid_le
  spends f e' h := by
    rcases List.mem_append.mp h with h | h
    · exact hs.spends f e' h
    · cases List.mem_singleton.mp h
      exact hspends f rfl

/-- So is one that is over at once. -/
theorem Solvent.atOnce (hs : Solvent s) (ha : Affordable s e)
    {cleared : List (NormalizedToolCall × Execution)} :
    Solvent ⟨s.store, cleared, s.waiting, s.ended ++ [⟨e, false⟩]⟩ where
  charged_le d := by
    have hle := hs.charged_le d
    have hcharged : (⟨s.store, cleared, s.waiting, s.ended ++ [⟨e, false⟩]⟩ :
        Session ρ γ).charged d = s.charged d + if e.restsOn d = true then 1 else 0 := by
      rw [Session.charged, Session.charged]
      dsimp only
      rw [List.countP_append, List.countP_singleton, add_assoc]
    rw [hcharged]
    split
    · exact hs.lt_of_affordable ha ‹_›
    · exact hle
  paid_le d := by
    rw [paid_ended, Bool.and_false, if_neg Bool.false_ne_true]
    exact hs.paid_le d
  spends := hs.spends

/-- An execution that ends without spending stays owed. -/
theorem Solvent.unspent (hs : Solvent s) {flight : Flight ρ γ}
    {l₁ l₂ : List (Flight ρ γ × Execution)} (waits : s.waiting = l₁ ++ (flight, e) :: l₂) :
    Solvent ⟨s.store, s.cleared, l₁ ++ l₂, s.ended ++ [⟨e, false⟩]⟩ where
  charged_le d := by
    rw [charged_ended waits]
    exact hs.charged_le d
  paid_le d := by
    rw [paid_ended, Bool.and_false, if_neg Bool.false_ne_true]
    exact hs.paid_le d
  spends f e' h := by
    refine hs.spends f e' ?_
    rw [waits]
    rcases List.mem_append.mp h with h | h
    · exact List.mem_append_left _ h
    · exact List.mem_append_right _ (List.mem_cons_of_mem _ h)

/-- The answer of the worker spends a grant, unless the last one is gone already. Then everything
that was minted was spent, and this execution is among those it was minted for. -/
theorem Solvent.spent (hs : Solvent s) {f : WorkerFlight ρ γ}
    {l₁ l₂ : List (Flight ρ γ × Execution)} (now : ℤ)
    (waits : s.waiting = l₁ ++ (.worker f, e) :: l₂) :
    Solvent ⟨s.store.consume f.actionDigest now, s.cleared, l₁ ++ l₂,
      s.ended ++ [⟨e, true⟩]⟩ where
  charged_le d := by
    rw [charged_ended waits, GrantStore.mintedOnce_consume]
    exact hs.charged_le d
  paid_le d := by
    have hdigest : f.actionDigest = e.digest := hs.spends f e (by simp [waits])
    rw [paid_ended, GrantStore.mintedOnce_consume, Bool.and_true, hdigest]
    have hle := hs.charged_le d
    have hpaid := hs.paid_le d
    have hcharged := s.charged_eq d
    have hmono : ∀ digest, (s.store.consume digest now).unspentOnce d ≤ s.store.unspentOnce d :=
      fun _ ↦ GrantStore.unspentOnce_consume_le
    by_cases hrests : e.restsOn d = true
    · have hd : e.digest = d := of_decide_eq_true (Bool.and_eq_true_iff.mp hrests).2
      have howed : 0 < s.owed d := by
        rw [Session.owed, waits, List.countP_append, List.countP_cons, if_pos hrests]
        omega
      rw [if_pos hrests, hd]
      dsimp only
      by_cases hleft : s.store.unspentOnce d = 0
      · have hnone := hmono d
        omega
      · have hless := @GrantStore.unspentOnce_consume s.store d now hleft
        omega
    · have hle := hmono e.digest
      rw [if_neg hrests]
      dsimp only
      omega
  spends f' e' h := by
    refine hs.spends f' e' ?_
    rw [waits]
    rcases List.mem_append.mp h with h | h
    · exact List.mem_append_left _ h
    · exact List.mem_append_right _ (List.mem_cons_of_mem _ h)

/-- **One step.** Whatever happens, what was paid for or could be still is, as long as the execution
that starts could be paid for. -/
theorem Solvent.step {started : Option Execution} (hs : Solvent s) (h : Step x s started s')
    (ha : ∀ e ∈ started, Affordable s e) : Solvent s' := by
  cases h with
  | approve id digest scope now grantedBy =>
    refine ⟨fun d ↦ ?_, fun d ↦ ?_, hs.spends⟩
    · have hle := hs.charged_le d
      rw [GrantStore.mintedOnce_add]
      exact Nat.le_add_right_of_le hle
    · have hle := hs.paid_le d
      rw [GrantStore.mintedOnce_add, GrantStore.unspentOnce_add, ← add_assoc]
      exact Nat.add_le_add_right hle _
  | clear p ctx call route present passes => exact ⟨hs.charged_le, hs.paid_le, hs.spends⟩
  | refuse ctx start later call result begun => exact hs
  | startWorker ctx start later call f begun =>
    refine hs.start (ha _ rfl) fun f' hf ↦ ?_
    cases hf
    exact actionDigest_of_beginPipeline (beginPipeline_of_begin begun)
  | startServer ctx start later call m f begun => exact hs.start (ha _ rfl) (by rintro _ ⟨⟩)
  | startInProcess ctx start later call f e l₁ l₂ cleared begun =>
    exact hs.start (ha _ rfl) (by rintro _ ⟨⟩)
  | runInProcess ctx start later call result e l₁ l₂ cleared begun =>
    exact hs.atOnce (ha _ rfl)
  | answerWorker f e l₁ l₂ answer later now waits =>
    cases answer with
    | error err => exact hs.unspent waits
    | ok response => exact hs.spent now waits
  | answerServer m f e l₁ l₂ waits => exact hs.unspent waits
  | answerInProcess f e l₁ l₂ waits => exact hs.unspent waits

theorem solvent_of_reach (h : Reach x Affordable s) : Solvent s := by
  induction h with
  | start => exact solvent_start
  | step _ hstep hmeets ih => exact ih.step hstep hmeets

/-- **What a `once` grant pays for.** In every run whose starts are affordable, no more executions
of an action rest on `once` grants than such grants were minted for it. -/
theorem charged_le_mintedOnce (x : Executors ι ρ γ ω ε σ β) (s : Session ρ γ)
    (h : Reach x Affordable s) (digest : String) :
    s.charged digest ≤ s.store.mintedOnce digest :=
  (solvent_of_reach h).charged_le digest

end Kept

/-! ### Two calls of a server on one yes -/

def exampleCall : NormalizedToolCall where
  itemId := "itm_1"
  callId := "call_1"
  toolName := "mcp__notes__add"
  argumentsJson := ""
  arguments := []

def exampleServer : McpExecutor where
  sys := examplePlatform
  canonicalJson _ := ""
  tools := [("mcp__notes__add", ⟨"notes", ⟨"add", none, none⟩⟩)]

def exampleExecutors : Executors Unit Unit Unit Unit Unit Unit Unit where
  wording := ⟨fun _ _ ↦ "", fun s ↦ (s, false), fun _ s ↦ s, fun _ _ ↦ ""⟩
  pipeline := ⟨examplePlatform, fun _ ↦ none, [], fun _ w ↦ (.ok (), w)⟩
  grant := ()
  isolation := .readOnly
  mcp := some exampleServer
  inProcess := none

def exampleFlight : ServerFlight :=
  ⟨⟨"notes", ⟨"add", none, none⟩⟩, exampleServer.mcpActionFor "notes" "add" [] true, [], [], 0⟩

/-- The session after a yes. -/
def approvedSession : Session Unit Unit :=
  { (.start : Session Unit Unit) with store := ⟨[exampleGrant]⟩ }

/-- The call is made, and rests on the grant. -/
def exampleExecution : Execution :=
  .of examplePlatform exampleFlight.action (approvedSession.context exampleContext)

def calledSession : Session Unit Unit :=
  { approvedSession with waiting := [(.server exampleServer exampleFlight, exampleExecution)] }

/-- The server has answered, and the grant is as it was. -/
def answeredSession : Session Unit Unit :=
  { approvedSession with ended := [⟨exampleExecution, false⟩] }

def calledAgainSession : Session Unit Unit :=
  { answeredSession with waiting := [(.server exampleServer exampleFlight, exampleExecution)] }

theorem begin_exampleCall :
    exampleExecutors.begin (approvedSession.context exampleContext) 0 0 exampleCall =
      .waiting (.server exampleServer exampleFlight) := rfl

theorem exampleExecution_restsOn :
    exampleExecution.restsOn
      "0a04efb62d61fa84dfad3c6a427c5e3a79e920df08ae2408536e0f310c30ca3f" = true := by
  decide

theorem reach_approvedSession (ok : Session Unit Unit → Execution → Prop) :
    Reach exampleExecutors ok approvedSession :=
  .step .start (.approve _ "grt-1" _ .once 900 "user") (by rintro _ ⟨⟩)

theorem reach_calledSession {ok : Session Unit Unit → Execution → Prop}
    (h : ok approvedSession exampleExecution) : Reach exampleExecutors ok calledSession := by
  refine .step (reach_approvedSession ok)
    (.startServer _ exampleContext 0 0 exampleCall _ _ begin_exampleCall) ?_
  rintro e ⟨⟩
  exact h

/-- The first call is paid for. -/
theorem charged_le_mintedOnce_calledSession :
    calledSession.charged "0a04efb62d61fa84dfad3c6a427c5e3a79e920df08ae2408536e0f310c30ca3f" ≤
      calledSession.store.mintedOnce
        "0a04efb62d61fa84dfad3c6a427c5e3a79e920df08ae2408536e0f310c30ca3f" :=
  charged_le_mintedOnce exampleExecutors calledSession
    (reach_calledSession fun _ ↦ by decide) _

/-- One yes, and the second call of the server runs on it as the first did. -/
theorem not_charged_le_mintedOnce :
    ¬ ∀ s : Session Unit Unit, Reach exampleExecutors (fun _ _ ↦ True) s →
      ∀ digest, s.charged digest ≤ s.store.mintedOnce digest := by
  intro h
  have hcalled := @reach_calledSession (fun _ _ ↦ True) trivial
  have hanswered : Reach exampleExecutors (fun _ _ ↦ True) answeredSession :=
    .step hcalled (.answerServer _ _ _ _ [] [] rfl) (by rintro _ ⟨⟩)
  have hagain : Reach exampleExecutors (fun _ _ ↦ True) calledAgainSession :=
    .step hanswered (.startServer _ exampleContext 0 0 exampleCall _ _ begin_exampleCall)
      fun _ _ ↦ trivial
  have hle := h calledAgainSession hagain
    "0a04efb62d61fa84dfad3c6a427c5e3a79e920df08ae2408536e0f310c30ca3f"
  have hcharged : calledAgainSession.charged
      "0a04efb62d61fa84dfad3c6a427c5e3a79e920df08ae2408536e0f310c30ca3f" = 2 := by
    rw [Session.charged]
    simp only [calledAgainSession, answeredSession, List.countP_singleton,
      exampleExecution_restsOn, if_true]
  have hminted : calledAgainSession.store.mintedOnce
      "0a04efb62d61fa84dfad3c6a427c5e3a79e920df08ae2408536e0f310c30ca3f" = 1 := by
    decide
  rw [hcharged, hminted] at hle
  exact absurd hle (by decide)

end QwenHarness.Tools
