import QwenHarness.Provider.ChatTransport
import QwenHarness.Provider.ResponsesTransport
import QwenHarness.Runtime.Drive

/-!
# No request after text

Where a stream has shown text and fails, the request must not be made again: a second stream would
go on where the first one broke off. The error says that text was shown, the retry policy refuses
every such error, and the engine makes no further request once an error was refused.
-/

namespace QwenHarness

open Effect

namespace Provider

/-! ## The provider -/

inductive ProviderTransport
  | responses (wire : ResponsesWire)
  | chat (wire : ChatWire)

/-- What one stream of the provider meets: what opens it, which is the request id of its header or
an error, its body, and whether its signal is aborted where something is thrown. -/
structure ProviderRun where
  transport : ProviderTransport
  opening : Except Failure (Option String)
  body : Body
  aborted : Bool
  wording : Wording

namespace ProviderRun

variable (run : ProviderRun)

def transported (headerRequestId : Option String) : Transport Unit :=
  match run.transport with
  | .responses wire => streamResponses wire headerRequestId run.body
  | .chat wire => streamChat wire headerRequestId run.body

def start : Transport Unit := do
  let headerRequestId ← orThrow run.opening
  run.transported headerRequestId

/-- Cancellation is no failure of the provider. -/
def isAbort : Failure → Bool
  | .harness _ => run.aborted
  | .raw error => run.aborted || error.isAbort

/-- What is thrown, as an error of the harness. -/
def classified (visibleOutputEmitted : Bool) : Failure → HarnessError
  | .harness error => error
  | .raw error => classifyTransportError run.wording error visibleOutputEmitted

/-- A failure is yielded and thrown, as the same error. -/
def reject (failure : Failure) : Transport Unit := fun s ↦
  let error := run.classified s.visibleOutputEmitted failure
  .error (.harness error) { s with yielded := s.yielded ++ [.error error] }

def stream : Transport Unit :=
  tryCatch run.start fun failure ↦ if run.isAbort failure then throw failure else run.reject failure

end ProviderRun

/-- What the engine sees of what is thrown. -/
def Failure.thrown : Failure → Thrown
  | .harness error => .harness error
  | .raw error => .other (error.message.getD "transport failure")

/-- The stream as the engine sees it: its events, or what it threw. -/
def ProviderRun.answer (run : ProviderRun) : Except Thrown (List ProviderStreamEvent) :=
  match run.stream {} with
  | .ok _ s => .ok s.yielded
  | .error failure _ => .error failure.thrown

/-- The stream has shown text. -/
def ProviderRun.ShowedText (run : ProviderRun) : Prop :=
  ∃ event ∈ (after (run.stream {})).yielded, isVisible event = true

/-! ## What a failed stream throws -/

/-- The policy refuses an error in every state, or it is no error that the policy is asked about. -/
def IsFinal : Thrown → Prop
  | .harness error => ∀ attempt elapsedMs rng policy, ∃ reason,
      decideRetry error attempt elapsedMs rng policy = .ok (.error reason)
  | .other _ => True

variable {run : ProviderRun}

theorem honestly_transported (headerRequestId : Option String) :
    Honestly (run.transported headerRequestId) := by
  rw [ProviderRun.transported]
  split
  · exact honestly_streamResponses _ _ _
  · exact honestly_streamChat _ _ _

/-- Where text has been shown, it has been noted, and an error of the harness says so. -/
def Told (failure : Failure) (s : Streaming) : Prop :=
  (∃ event ∈ s.yielded, isVisible event = true) →
    s.visibleOutputEmitted = true ∧
      ∀ error, failure = .harness error → error.visibleOutputEmitted = true

theorem Flagged.told {failure : Failure} {s : Streaming} (h : Flagged failure s) :
    Told failure s := by
  rintro ⟨event, hevent, hvisible⟩
  have hnoted := h.1 event hevent hvisible
  exact ⟨hnoted, fun error he ↦ (h.2 error he).trans hnoted⟩

/-- What fails before the first frame has shown nothing. -/
theorem told_start : Triple (fun s ↦ s = {}) run.start (fun _ _ ↦ True) Told := by
  rw [ProviderRun.start]
  cases run.opening with
  | error failure =>
    refine Triple.throw fun s hs ↦ ?_
    rw [hs]
    rintro ⟨event, hevent, -⟩
    exact absurd hevent List.not_mem_nil
  | ok headerRequestId =>
    refine (honestly_transported headerRequestId).conseq (fun s hs ↦ ?_) (fun _ _ _ ↦ trivial)
      fun _ _ h ↦ h.told
    rw [hs]
    exact List.forall_mem_nil _

theorem isFinal_of_visibleOutputEmitted {error : HarnessError}
    (h : error.visibleOutputEmitted = true) : IsFinal (.harness error) :=
  fun attempt elapsedMs rng policy ↦
    decideRetry_of_visibleOutputEmitted h attempt elapsedMs rng policy

/-- What a stream throws is final if it has shown text; and it is an error of the harness, unless
the stream was aborted. -/
theorem stream_spec (run : ProviderRun) :
    Triple (fun s ↦ s = {}) run.stream (fun _ _ ↦ True) fun failure s ↦
      ((∃ event ∈ s.yielded, isVisible event = true) → IsFinal failure.thrown) ∧
        (run.isAbort failure = true ∨ ∃ error, failure = .harness error) := by
  refine .tryCatch told_start fun failure ↦ ?_
  split
  · next habort =>
    refine .throw fun s htold ↦ ⟨fun hvisible ↦ ?_, .inl habort⟩
    cases failure with
    | harness error => exact isFinal_of_visibleOutputEmitted ((htold hvisible).2 error rfl)
    | raw error => trivial
  · refine fun s htold ↦ ⟨fun hvisible ↦ ?_, .inr ⟨_, rfl⟩⟩
    refine isFinal_of_visibleOutputEmitted ?_
    have hshown : ∃ event ∈ s.yielded, isVisible event = true := by
      obtain ⟨event, hevent, hv⟩ := hvisible
      rcases List.mem_append.mp hevent with hevent | hevent
      · exact ⟨event, hevent, hv⟩
      · rw [List.mem_singleton.mp hevent] at hv
        exact absurd hv Bool.false_ne_true
    cases failure with
    | harness error => exact (htold hshown).2 error rfl
    | raw error => exact (htold hshown).1

theorem isFinal_of_showedText (h : run.ShowedText) {t : Thrown} (ht : run.answer = .error t) :
    IsFinal t := by
  have hspec := stream_spec run {} rfl
  rw [ProviderRun.ShowedText] at h
  rw [ProviderRun.answer] at ht
  cases hrun : run.stream {} with
  | ok a s =>
    rw [hrun] at ht
    cases ht
  | error failure s =>
    rw [hrun] at h ht hspec
    cases ht
    exact hspec.1 h

end Provider

namespace TurnEngine

open Provider

variable {σ : Type} {deps : TurnEngineDeps σ} {request : ModelRequest} {startedAt : ℤ}

/-! ## The attempts of a round -/

/-- A request that threw what is final. -/
def IsFinalStream (o : Obs) : Prop := ∃ request t, o = .stream request (.error t) ∧ IsFinal t

/-- No request comes after one that threw what is final. -/
def AttemptsStop (seg : List (Entry σ)) : Prop :=
  seg.Pairwise fun e e' ↦ IsFinalStream e.obs → e'.obs.kind ≠ .stream

/-- What was recorded since some time, which is in order. Where the last thing that was thrown, if
anything was, is not final, another request may come. -/
def Tried (before : List (Entry σ)) (thrown : Option Thrown) (w : World σ) : Prop :=
  ∃ seg, w.trace = before ++ seg ∧ AttemptsStop seg ∧
    ((∀ t ∈ thrown, ¬ IsFinal t) → ∀ e ∈ seg, ¬ IsFinalStream e.obs)

/-- What was recorded since some time is in order. -/
def RequestsStopped (before : List (Entry σ)) (w : World σ) : Prop :=
  ∃ seg, w.trace = before ++ seg ∧ AttemptsStop seg

variable {before : List (Entry σ)} {thrown : Option Thrown} {w w' : World σ} {o : Obs}

theorem Tried.stopped (h : Tried before thrown w) : RequestsStopped before w := by
  obtain ⟨seg, htrace, hstops, -⟩ := h
  exact ⟨seg, htrace, hstops⟩

theorem tried_self (w : World σ) : Tried w.trace none w :=
  ⟨[], (List.append_nil _).symm, .nil, fun _ ↦ List.forall_mem_nil _⟩

theorem Tried.of_trace_eq (h : Tried before thrown w) (htrace : w'.trace = w.trace) :
    Tried before thrown w' := by
  rw [Tried, htrace]
  exact h

/-- What is no request may come at any time. -/
theorem Tried.add (h : Tried before thrown w) (ha : Adds deps o w w') (ho : o.kind ≠ .stream) :
    Tried before thrown w' := by
  obtain ⟨seg, htrace, hstops, hnone⟩ := h
  refine ⟨seg ++ [⟨w.env, w.turn.machine.state, o⟩], ?_, ?_, fun hthrown ↦ ?_⟩
  · rw [ha.trace, htrace, List.append_assoc]
  · refine List.pairwise_append.mpr ⟨hstops, List.pairwise_singleton _ _, ?_⟩
    exact fun _ _ e' he' _ ↦ by rw [List.mem_singleton.mp he']; exact ho
  · refine List.forall_mem_append.mpr ⟨hnone hthrown, List.forall_mem_singleton.mpr ?_⟩
    rintro ⟨request, t, rfl, -⟩
    exact ho rfl

/-- A request is made while nothing final has been thrown. -/
theorem Tried.stream {answer : Except Thrown (List ProviderStreamEvent)}
    (h : Tried before none w) (ha : Adds deps (.stream request answer) w w')
    (hthrown : ∀ t, answer = .error t → thrown = some t) : Tried before thrown w' := by
  obtain ⟨seg, htrace, hstops, hnone⟩ := h
  have hopen := hnone fun _ ht ↦ absurd ht (Option.not_mem_none _)
  refine ⟨seg ++ [⟨w.env, w.turn.machine.state, .stream request answer⟩], ?_, ?_, fun hfinal ↦ ?_⟩
  · rw [ha.trace, htrace, List.append_assoc]
  · refine List.pairwise_append.mpr ⟨hstops, List.pairwise_singleton _ _, ?_⟩
    exact fun e he _ _ hstream ↦ absurd hstream (hopen e he)
  · refine List.forall_mem_append.mpr ⟨hopen, List.forall_mem_singleton.mpr ?_⟩
    rintro ⟨request', t, heq, ht⟩
    cases heq
    exact hfinal t (hthrown t rfl) ht

theorem Tried.again {t : Thrown} (h : Tried before (some t) w) (ht : ¬ IsFinal t) :
    Tried before none w := by
  obtain ⟨seg, htrace, hstops, hnone⟩ := h
  refine ⟨seg, htrace, hstops, fun _ ↦ hnone fun t' ht' ↦ ?_⟩
  rw [← Option.some_inj.mp ht']
  exact ht

/-- An error after which the policy waits for another attempt is not final. -/
theorem not_isFinal {error : HarnessError} {attempt : ℕ} {elapsedMs delayMs : ℤ} {rng : ℚ}
    {policy : RetryPolicy}
    (h : decideRetry error attempt elapsedMs rng policy = .ok (.ok delayMs)) :
    ¬ IsFinal (.harness error) := by
  intro hfinal
  obtain ⟨reason, hreason⟩ := hfinal attempt elapsedMs rng policy
  rw [h] at hreason
  cases hreason

/-- **The attempts of a request stop** at the first one that throws what is final. -/
theorem stopped_streamWithRetry (fuel attempt : ℕ) :
    Triple (Tried before none) (streamWithRetry deps request startedAt attempt fuel)
      (fun _ ↦ RequestsStopped before) fun _ ↦ RequestsStopped before := by
  induction fuel generalizing attempt with
  | zero => exact .throw fun _ h ↦ h.stopped
  | succ fuel ih =>
    rw [streamWithRetry]
    refine .tryCatch (s := fun t ↦ Tried before (some t)) ?_ fun t ↦ ?_
    · refine .bind (s := fun _ ↦ Tried before none) ?_ fun _ ↦ .pure fun _ h ↦ h.stopped
      exact ask_rule (fun _ ↦ rfl) (fun _ h ha ↦ h.stream ha fun _ heq ↦ by cases heq)
        fun t h ha ↦ h.stream ha fun _ heq ↦ by cases heq; rfl
    · refine .bind (s := fun _ ↦ Tried before (some t))
        (signal_rule fun _ h ha ↦ h.add ha Kind.noConfusion) fun aborted ↦ ?_
      split
      · exact .throw fun _ h ↦ h.stopped
      · cases t with
        | other message => exact .throw fun _ h ↦ h.stopped
        | harness error =>
          refine .bind (s := fun _ ↦ Tried before (some (.harness error)))
            (fun _ h ↦ h.of_trace_eq rfl) fun now ↦ ?_
          refine .bind (s := fun _ ↦ Tried before (some (.harness error)))
            (fun _ h ↦ h.of_trace_eq rfl) fun r ↦ ?_
          cases hd : decideRetry error attempt (now - startedAt) r deps.retryPolicy with
          | error e => exact .throw fun _ h ↦ h.stopped
          | ok decision =>
            cases decision with
            | error reason => exact .throw fun _ h ↦ h.stopped
            | ok delayMs =>
              refine .bind (s := fun d w ↦ d = .ok delayMs ∧ Tried before none w)
                (fun _ h ↦ ⟨rfl, h.again (not_isFinal hd)⟩) fun d ↦ .assuming ?_
              rintro rfl
              refine .bind (s := fun _ ↦ Tried before none) ?_ fun _ ↦ ih (attempt + 1)
              exact ask_rule (fun _ ↦ rfl) (fun _ h ha ↦ h.add ha Kind.noConfusion)
                fun _ h ha ↦ (h.add ha Kind.noConfusion).stopped

theorem stopped_after (fuel attempt : ℕ) (w : World σ) :
    RequestsStopped w.trace (after (streamWithRetry deps request startedAt attempt fuel w)) := by
  have hrule : Triple (Tried w.trace none) (streamWithRetry deps request startedAt attempt fuel)
      (fun _ ↦ RequestsStopped w.trace) fun _ ↦ RequestsStopped w.trace :=
    stopped_streamWithRetry fuel attempt
  have hw := hrule w (tried_self w)
  cases hr : streamWithRetry deps request startedAt attempt fuel w with
  | ok a w' =>
    rw [hr] at hw
    exact hw
  | error t w' =>
    rw [hr] at hw
    exact hw

/-- **No request is made after text.** Whatever a stream of the provider meets, if it has shown text
then an error of the harness that it throws is refused in every state and by every policy; and it
throws nothing else, unless it was aborted. So in the attempts of a request no other one comes after
one whose stream has shown text and failed. -/
theorem no_request_after_text (runs : ModelRequest → σ → ProviderRun)
    (hstream : ∀ request s, (deps.stream request s).1 = (runs request s).answer)
    (attempt fuel : ℕ) (w : World σ) :
    (∀ run : ProviderRun, run.ShowedText → ∀ failure s, run.stream {} = .error failure s →
        (∀ error, failure = .harness error → ∀ attempt elapsedMs rng policy, ∃ reason,
          decideRetry error attempt elapsedMs rng policy = .ok (.error reason)) ∧
        (run.isAbort failure = true ∨ ∃ error, failure = .harness error)) ∧
      ∃ seg, (after (streamWithRetry deps request startedAt attempt fuel w)).trace =
          w.trace ++ seg ∧
        seg.Pairwise fun e e' ↦ ∀ request t, e.obs = .stream request (.error t) →
          (runs request e.env).ShowedText → e'.obs.kind ≠ .stream := by
  constructor
  · intro run hshown failure s hrun
    have hspec := stream_spec run {} rfl
    rw [ProviderRun.ShowedText, hrun] at hshown
    rw [hrun] at hspec
    refine ⟨?_, hspec.2⟩
    rintro error rfl
    exact hspec.1 hshown
  · have hleaves : Leaves deps [.stream, .signal, .sleep] w
        (after (streamWithRetry deps request startedAt attempt fuel w)) :=
      footprint_streamWithRetry fuel w
    obtain ⟨seg, htrace, -, -, hlinked⟩ := hleaves.records
    obtain ⟨seg', htrace', hstops⟩ := stopped_after fuel attempt w
    obtain rfl : seg = seg' := List.append_cancel_left (htrace.symm.trans htrace')
    refine ⟨seg, htrace, hstops.imp_of_mem fun {e e'} he _ hstop request t ho hshown ↦ ?_⟩
    obtain ⟨s', hanswers⟩ := hlinked.answers he
    rw [ho] at hanswers
    have hanswer : Except.error t = (deps.stream request e.env).1 := congrArg Prod.fst hanswers
    rw [hstream] at hanswer
    exact hstop ⟨request, t, ho, isFinal_of_showedText hshown hanswer.symm⟩

/-! ## A stream that is cut off -/

def helloText : String :=
  "\x7b\"choices\":[\x7b\"delta\":\x7b\"content\":\"Hello\"\x7d\x7d]\x7d"

def helloValue : Codec.Value :=
  .obj [("choices", .arr [.obj [("delta", .obj [("content", .str "Hello")])]])]

/-- Reads the text above as it is, and nothing else. -/
def helloWire : ChatWire where
  json text :=
    if text = helloText.toList then .ok helloValue else .error ⟨some "Unexpected token", false⟩
  chunk
    | .obj (("choices", _) :: _) =>
      .ok { choices := [{ delta := some { content := some "Hello" } }] }
    | _ => .error ⟨some "Invalid input", false⟩

/-- The connection is reset after the first frame. -/
def cutRun : ProviderRun where
  transport := .chat helloWire
  opening := .ok none
  body := ⟨[⟨none, helloText.toList⟩], some ⟨some "read ECONNRESET", false⟩⟩
  aborted := false
  wording := ⟨fun code ↦ code, fun message ↦ message⟩

def cutDeps : TurnEngineDeps Unit := { plainDeps with stream := fun _ _ ↦ (cutRun.answer, ()) }

def cutRequest : ModelRequest := ⟨"model", "", [], []⟩

theorem no_request_after_text_cut :
    ∃ seg, (after (streamWithRetry cutDeps cutRequest 0 1 10 (initial () 0))).trace =
        (initial () 0).trace ++ seg ∧
      seg.Pairwise fun e e' ↦ ∀ request t, e.obs = .stream request (.error t) →
        cutRun.ShowedText → e'.obs.kind ≠ .stream :=
  (no_request_after_text (fun _ _ ↦ cutRun) (fun _ _ ↦ rfl) 1 10 (initial () 0)).2

/-- Text is shown, and then the error of the transport is yielded and thrown. -/
example : ((after (cutRun.stream {})).yielded.map isVisible, cutRun.answer.isOk) =
    ([true, false], false) := by
  decide +kernel

end TurnEngine

end QwenHarness
