import QwenHarness.Run.Along
import QwenHarness.Teams.Protocol
import Mathlib.Data.List.Perm.Subperm

/-!
# Requests and their answers

The tracker keeps the requests that wait under their correlation ids, which the members choose
themselves. What it is for is said of a ledger that keeps each request that was registered until
it is answered or expires: a response is accepted if and only if it answers a request of the
ledger.

A request that is registered under the id of another takes its place in the tracker. So the
tracker agrees with the ledger if and only if no id is used twice at a time (`tracks_iff`), but
for a request that is registered again as it is and not answered until both are gone.
-/

namespace QwenHarness.Teams

/-! ## What answers a request -/

/-- The types that answer a request. -/
def responses : ProtocolMessageType → List ProtocolMessageType
  | .permissionRequest => [.permissionResponse]
  | .planApprovalRequest => [.planApprovalResponse]
  | .sandboxPermissionRequest => [.sandboxPermissionResponse]
  | .shutdownRequest => [.shutdownApproved, .shutdownRejected]
  | _ => []

/-- The message answers the request: it has its id, a type that answers it, and goes from its
recipient back to its sender. -/
def Outstanding.AnsweredBy (req : Outstanding) (msg : ProtocolMessage)
    (sender recipient : String) : Prop :=
  correlationOf msg = some req.correlationId ∧ msg.type ∈ responses req.requestType ∧
    sender = req.recipient ∧ recipient = req.sender

instance (req : Outstanding) (msg : ProtocolMessage) (sender recipient : String) :
    Decidable (req.AnsweredBy msg sender recipient) :=
  inferInstanceAs (Decidable (_ ∧ _ ∧ _ ∧ _))

/-- The request that a message makes, if it makes one. -/
def requestOf (msg : ProtocolMessage) (sender recipient : String) : Option Outstanding :=
  match correlationOf msg with
  | none => none
  | some correlationId =>
    if isRequest msg.type then some ⟨correlationId, msg.type, sender, recipient⟩ else none

/-- Some answer to a request. -/
def Outstanding.answer (req : Outstanding) : ProtocolMessage :=
  match req.requestType with
  | .permissionRequest => .permissionResponse req.correlationId true
  | .planApprovalRequest => .planApprovalResponse req.correlationId true none
  | .sandboxPermissionRequest => .sandboxPermissionResponse req.correlationId true
  | _ => .shutdownApproved req.correlationId

theorem Outstanding.answeredBy_answer {req : Outstanding} (h : isRequest req.requestType = true) :
    req.AnsweredBy req.answer req.recipient req.sender := by
  obtain ⟨correlationId, requestType, sender, recipient⟩ := req
  refine ⟨?_, ?_, rfl, rfl⟩
  · cases requestType <;> rfl
  · cases requestType <;> first
      | exact absurd h Bool.false_ne_true
      | exact List.mem_cons_self

/-- The type of the requests that a type answers. -/
def answered : ProtocolMessageType → Option ProtocolMessageType
  | .permissionResponse => some .permissionRequest
  | .planApprovalResponse => some .planApprovalRequest
  | .sandboxPermissionResponse => some .sandboxPermissionRequest
  | .shutdownApproved => some .shutdownRequest
  | .shutdownRejected => some .shutdownRequest
  | _ => none

theorem mem_responses_iff {request response : ProtocolMessageType} :
    response ∈ responses request ↔ answered response = some request := by
  cases request <;> cases response <;> decide

/-- What the tracker expects is what answers the request. -/
theorem expected_iff {request response : ProtocolMessageType} :
    (if request = .shutdownRequest then
        decide (response = .shutdownApproved ∨ response = .shutdownRejected)
      else decide (responseFor request = some response)) = true ↔
      response ∈ responses request := by
  cases request <;> cases response <;> decide

theorem isResponse_of_mem {request response : ProtocolMessageType}
    (h : response ∈ responses request) : isResponse response = true := by
  rw [mem_responses_iff] at h
  cases response <;> first
    | rfl
    | cases h

/-- A message answers one request, but for copies of it. -/
theorem Outstanding.eq_of_answeredBy {req req' : Outstanding} {msg : ProtocolMessage}
    {sender recipient : String} (h : req.AnsweredBy msg sender recipient)
    (h' : req'.AnsweredBy msg sender recipient) : req = req' := by
  obtain ⟨hid, htype, hsender, hrecipient⟩ := h
  obtain ⟨hid', htype', hsender', hrecipient'⟩ := h'
  obtain ⟨correlationId, requestType, from₁, to₁⟩ := req
  obtain ⟨correlationId', requestType', from₂, to₂⟩ := req'
  cases Option.some.inj (hid.symm.trans hid')
  rw [mem_responses_iff] at htype htype'
  cases Option.some.inj (htype.symm.trans htype')
  cases hsender.symm.trans hsender'
  cases hrecipient.symm.trans hrecipient'
  rfl

/-! ## What the tracker does -/

section Tracker

variable {tracker tracker' : ProtocolTracker} {msg : ProtocolMessage} {sender recipient : String}

/-- **A response that is accepted** answers a request of the tracker, which is taken off. -/
theorem matchResponse_eq_ok_iff : tracker.matchResponse msg sender recipient = .ok tracker' ↔
    ∃ req ∈ tracker.outstanding.rows, req.AnsweredBy msg sender recipient ∧
      tracker' = ⟨tracker.outstanding.filter fun other ↦
        decide (other.correlationId ≠ req.correlationId)⟩ := by
  rw [ProtocolTracker.matchResponse]
  constructor
  · intro h
    split at h
    · next correlationId hcorrelation _ =>
      split at h
      · cases h
      · next req hreq =>
        obtain ⟨hmem, hid⟩ := Keyed.find?_eq_some_iff.mp hreq
        by_cases htype : msg.type ∈ responses req.requestType
        · rw [expected_iff.mpr htype, if_neg (Ne.symm Bool.false_ne_true)] at h
          split at h
          · cases h
          · next hparties =>
            obtain ⟨hsender, hrecipient⟩ := not_or.mp hparties
            cases h
            refine ⟨req, hmem, ⟨?_, htype, not_not.mp hsender, not_not.mp hrecipient⟩, ?_⟩
            · rw [hcorrelation, hid]
            · rw [hid]
        · rw [Bool.eq_false_iff.mpr (mt expected_iff.mp htype), if_pos rfl] at h
          cases h
    · cases h
  · rintro ⟨req, hmem, ⟨hid, htype, hsender, hrecipient⟩, rfl⟩
    have hfind := Keyed.find?_eq_some_iff.mpr ⟨hmem, rfl⟩
    rw [hid, isResponse_of_mem htype]
    simp only [hfind]
    rw [expected_iff.mpr htype, if_neg (Ne.symm Bool.false_ne_true),
      if_neg (not_or.mpr ⟨not_not.mpr hsender, not_not.mpr hrecipient⟩)]

theorem register_of_none (h : requestOf msg sender recipient = none) :
    tracker.register msg sender recipient = tracker := by
  rw [requestOf] at h
  rw [ProtocolTracker.register]
  split
  · rfl
  · next hcorrelation =>
    rw [hcorrelation] at h
    by_cases hrequest : isRequest msg.type = true
    · simp only [if_pos hrequest] at h
      cases h
    · rw [if_neg hrequest]

/-- A request takes the place of the one that is registered under its id. -/
theorem mem_register_iff {req x : Outstanding} (h : requestOf msg sender recipient = some req) :
    x ∈ (tracker.register msg sender recipient).outstanding.rows ↔
      x = req ∨ x ∈ tracker.outstanding.rows ∧ x.correlationId ≠ req.correlationId := by
  cases hcorrelation : correlationOf msg with
  | none =>
    rw [requestOf, hcorrelation] at h
    cases h
  | some correlationId =>
    rw [requestOf, hcorrelation] at h
    rw [ProtocolTracker.register, hcorrelation]
    dsimp only at h ⊢
    split at h
    · next hrequest =>
      cases h
      simp only [if_pos hrequest]
      by_cases htaken : ∃ y ∈ tracker.outstanding.rows, y.correlationId = correlationId
      · rw [Keyed.rows_upsert_of_mem _ htaken]
        obtain ⟨y, hy, hid⟩ := htaken
        rw [List.mem_map]
        constructor
        · rintro ⟨z, hz, rfl⟩
          by_cases hzid : z.correlationId = correlationId
          · rw [if_pos hzid, hzid]
            exact .inl rfl
          · rw [if_neg hzid]
            exact .inr ⟨hz, hzid⟩
        · rintro (rfl | ⟨hx, hxid⟩)
          · exact ⟨y, hy, by rw [if_pos hid, hid]⟩
          · exact ⟨x, hx, if_neg hxid⟩
      · have hfree : ∀ y ∈ tracker.outstanding.rows, y.correlationId ≠ correlationId :=
          fun y hy hid ↦ htaken ⟨y, hy, hid⟩
        rw [Keyed.rows_upsert_of_not_mem _ hfree, List.mem_append, List.mem_singleton, or_comm]
        exact or_congr Iff.rfl ⟨fun hx ↦ ⟨hx, hfree x hx⟩, fun hx ↦ hx.1⟩
    · cases h

theorem requestOf_isRequest {req : Outstanding} (h : requestOf msg sender recipient = some req) :
    isRequest req.requestType = true := by
  rw [requestOf] at h
  split at h
  · cases h
  · split at h
    · next hrequest =>
      cases h
      exact hrequest
    · cases h

end Tracker

/-! ## The ledger -/

inductive TrackerCall
  | register (msg : ProtocolMessage) (sender recipient : String)
  | matchResponse (msg : ProtocolMessage) (sender recipient : String)
  | expireFrom (member : String)

/-- A tracker and the requests as the members see them. -/
structure Ledger where
  tracker : ProtocolTracker
  registered : List Outstanding
  /-- The requests that were registered and neither answered nor expired. -/
  outstanding : List Outstanding
  answered : List Outstanding
  /-- How many responses were accepted. -/
  accepted : ℕ

namespace Ledger

def start : Ledger := ⟨.empty, [], [], [], 0⟩

def enter (call : TrackerCall) (v : Ledger) : Ledger :=
  match call with
  | .register msg sender recipient =>
    let reqs := (requestOf msg sender recipient).toList
    { v with
      tracker := v.tracker.register msg sender recipient
      registered := v.registered ++ reqs
      outstanding := v.outstanding ++ reqs }
  | .matchResponse msg sender recipient =>
    match v.tracker.matchResponse msg sender recipient with
    | .error _ => v
    | .ok tracker =>
      let req? := v.outstanding.find? fun req ↦ decide (req.AnsweredBy msg sender recipient)
      { v with
        tracker
        outstanding := req?.elim v.outstanding v.outstanding.erase
        answered := v.answered ++ req?.toList
        accepted := v.accepted + 1 }
  | .expireFrom member =>
    { v with
      tracker := (v.tracker.expireFrom member).2
      outstanding := v.outstanding.filter fun req ↦
        !decide (req.sender = member ∨ req.recipient = member) }

/-- A response is accepted if and only if it answers a request that is outstanding. -/
def Exact (v : Ledger) : Prop :=
  ∀ msg sender recipient, (v.tracker.matchResponse msg sender recipient).isOk = true ↔
    ∃ req ∈ v.outstanding, req.AnsweredBy msg sender recipient

/-- A registration leaves the requests of the other members in the tracker. -/
def Keeps (call : TrackerCall) (v : Ledger) : Prop :=
  ∀ msg sender recipient, call = .register msg sender recipient →
    ∀ req ∈ v.tracker.outstanding.rows, req.sender ≠ sender →
      req ∈ (enter call v).tracker.outstanding.rows

/-- A request is registered under an id that is free, or is the one that is under it already; and
a response does not answer a request that is outstanding twice. -/
def Clear : TrackerCall → Ledger → Prop
  | .register msg sender recipient, v =>
    ∀ req ∈ requestOf msg sender recipient, ∀ old ∈ v.outstanding,
      old.correlationId = req.correlationId → old = req
  | .matchResponse msg sender recipient, v =>
    ∀ req ∈ v.outstanding, req.AnsweredBy msg sender recipient → req ∉ v.outstanding.erase req
  | .expireFrom _, _ => True

end Ledger

open Run Ledger

/-- **What the tracker is for**: it accepts the answers to the requests that are outstanding, each
of them once, and no member can make it forget the request of another. -/
structure Tracks (calls : List TrackerCall) : Prop where
  exact : Along enter (fun call v ↦ Exact (enter call v)) calls start
  once : (run enter calls start).answered.Subperm (run enter calls start).registered ∧
    (run enter calls start).answered.length = (run enter calls start).accepted
  keeps : Along enter Keeps calls start

/-! ## The tracker mirrors the ledger -/

namespace Ledger

variable {v : Ledger} {call : TrackerCall}

/-- The tracker has the requests that are outstanding. -/
def Mirrors (v : Ledger) : Prop := ∀ req, req ∈ v.tracker.outstanding.rows ↔ req ∈ v.outstanding

/-- Only requests are registered. -/
structure Sound (v : Ledger) : Prop where
  rows : ∀ req ∈ v.tracker.outstanding.rows, isRequest req.requestType = true
  outstanding : ∀ req ∈ v.outstanding, isRequest req.requestType = true

theorem isOk_matchResponse_iff {tracker : ProtocolTracker} {msg : ProtocolMessage}
    {sender recipient : String} : (tracker.matchResponse msg sender recipient).isOk = true ↔
      ∃ req ∈ tracker.outstanding.rows, req.AnsweredBy msg sender recipient := by
  constructor
  · intro h
    cases hresult : tracker.matchResponse msg sender recipient with
    | error reason =>
      rw [hresult] at h
      cases h
    | ok tracker' =>
      obtain ⟨req, hmem, hanswered, -⟩ := matchResponse_eq_ok_iff.mp hresult
      exact ⟨req, hmem, hanswered⟩
  · rintro ⟨req, hmem, hanswered⟩
    rw [matchResponse_eq_ok_iff.mpr ⟨req, hmem, hanswered, rfl⟩]
    rfl

/-- Every request has an answer that tells it from the others. -/
theorem subset_of_answeredBy {reqs reqs' : List Outstanding}
    (hreqs : ∀ req ∈ reqs, isRequest req.requestType = true)
    (h : ∀ msg sender recipient, (∃ req ∈ reqs, req.AnsweredBy msg sender recipient) →
      ∃ req ∈ reqs', req.AnsweredBy msg sender recipient) : reqs ⊆ reqs' := by
  intro req hmem
  have hanswer := req.answeredBy_answer (hreqs req hmem)
  obtain ⟨req', hmem', hanswer'⟩ := h _ _ _ ⟨req, hmem, hanswer⟩
  rwa [Outstanding.eq_of_answeredBy hanswer hanswer']

theorem exact_iff_mirrors (h : Sound v) : Exact v ↔ Mirrors v := by
  constructor
  · intro hexact req
    have hiff msg sender recipient := isOk_matchResponse_iff.symm.trans
      (hexact msg sender recipient)
    exact ⟨fun hreq ↦ subset_of_answeredBy h.rows (fun _ _ _ ↦ (hiff _ _ _).mp) hreq,
      fun hreq ↦ subset_of_answeredBy h.outstanding (fun _ _ _ ↦ (hiff _ _ _).mpr) hreq⟩
  · intro hmirrors msg sender recipient
    rw [isOk_matchResponse_iff]
    exact exists_congr fun req ↦ and_congr_left fun _ ↦ hmirrors req

variable {msg : ProtocolMessage} {sender recipient member : String} {req : Outstanding}

theorem enter_register_of_none (h : requestOf msg sender recipient = none) :
    enter (.register msg sender recipient) v = v := by
  rw [enter, register_of_none h, h, Option.toList_none, List.append_nil, List.append_nil]

/-- A response answers the request that it was accepted for. -/
theorem find?_answered (hmem : req ∈ v.outstanding)
    (hanswered : req.AnsweredBy msg sender recipient) :
    (v.outstanding.find? fun req ↦ decide (req.AnsweredBy msg sender recipient)) = some req := by
  have hsome : (v.outstanding.find? fun req ↦ decide (req.AnsweredBy msg sender recipient)).isSome
      = true := List.find?_isSome.mpr ⟨req, hmem, decide_eq_true hanswered⟩
  obtain ⟨req', hreq'⟩ := Option.isSome_iff_exists.mp hsome
  have hdecide := List.find?_some hreq'
  have hanswered' : req'.AnsweredBy msg sender recipient := of_decide_eq_true hdecide
  rw [hreq', Outstanding.eq_of_answeredBy hanswered' hanswered]

/-- A response leaves everything as it is, or takes the request that it answers off both lists. -/
theorem enter_matchResponse (h : Mirrors v) :
    enter (.matchResponse msg sender recipient) v = v ∧
        (∀ req ∈ v.outstanding, ¬ req.AnsweredBy msg sender recipient) ∨
      ∃ req ∈ v.outstanding, req.AnsweredBy msg sender recipient ∧
        enter (.matchResponse msg sender recipient) v =
          { v with
            tracker := ⟨v.tracker.outstanding.filter fun other ↦
              decide (other.correlationId ≠ req.correlationId)⟩
            outstanding := v.outstanding.erase req
            answered := v.answered ++ [req]
            accepted := v.accepted + 1 } := by
  rw [enter]
  cases hresult : v.tracker.matchResponse msg sender recipient with
  | error reason =>
    refine .inl ⟨rfl, fun req hmem hanswered ↦ ?_⟩
    have hok := matchResponse_eq_ok_iff.mpr ⟨req, (h req).mpr hmem, hanswered, rfl⟩
    cases hresult.symm.trans hok
  | ok tracker' =>
    obtain ⟨req, hmem, hanswered, rfl⟩ := matchResponse_eq_ok_iff.mp hresult
    have hout := (h req).mp hmem
    refine .inr ⟨req, hout, hanswered, ?_⟩
    simp only [find?_answered hout hanswered, Option.elim_some, Option.toList_some]

theorem sound_enter (hmirrors : Mirrors v) (h : Sound v) : Sound (enter call v) := by
  cases call with
  | register msg sender recipient =>
    cases hreq : requestOf msg sender recipient with
    | none => rwa [enter_register_of_none hreq]
    | some req =>
      have hnew := requestOf_isRequest hreq
      refine ⟨fun x hx ↦ ?_, fun x hx ↦ ?_⟩
      · rcases (mem_register_iff hreq).mp hx with rfl | ⟨hold, -⟩
        · exact hnew
        · exact h.rows x hold
      · change x ∈ v.outstanding ++ (requestOf msg sender recipient).toList at hx
        rw [hreq, Option.toList_some] at hx
        rcases List.mem_append.mp hx with hold | hx
        · exact h.outstanding x hold
        · rwa [List.mem_singleton.mp hx]
  | matchResponse msg sender recipient =>
    rcases enter_matchResponse hmirrors with ⟨hsame, -⟩ | ⟨req, -, -, heq⟩
    · rwa [hsame]
    · rw [heq]
      exact ⟨fun x hx ↦ h.rows x (List.mem_filter.mp hx).1,
        fun x hx ↦ h.outstanding x (List.mem_of_mem_erase hx)⟩
  | expireFrom member =>
    exact ⟨fun x hx ↦ h.rows x (List.mem_filter.mp hx).1,
      fun x hx ↦ h.outstanding x (List.mem_filter.mp hx).1⟩

/-- **The tracker mirrors the ledger on** if and only if the call is clear. -/
theorem mirrors_enter_iff (h : Mirrors v) : Mirrors (enter call v) ↔ Clear call v := by
  cases call with
  | register msg sender recipient =>
    cases hreq : requestOf msg sender recipient with
    | none =>
      rw [enter_register_of_none hreq]
      refine iff_of_true h fun req hmem ↦ ?_
      rw [hreq] at hmem
      cases hmem
    | some req =>
      have hout (x : Outstanding) :
          x ∈ (enter (.register msg sender recipient) v).outstanding ↔
            x ∈ v.outstanding ∨ x = req := by
        change x ∈ v.outstanding ++ (requestOf msg sender recipient).toList ↔ _
        rw [hreq, Option.toList_some, List.mem_append, List.mem_singleton]
      constructor
      · intro hafter req' hreq' old hold hid
        cases Option.some.inj (hreq.symm.trans hreq')
        rcases (mem_register_iff hreq).mp ((hafter old).mpr ((hout old).mpr (.inl hold))) with
          heq | ⟨-, hne⟩
        · exact heq
        · exact absurd hid hne
      · intro hclear x
        refine (mem_register_iff hreq).trans (Iff.trans ?_ (hout x).symm)
        constructor
        · rintro (rfl | ⟨hx, -⟩)
          · exact .inr rfl
          · exact .inl ((h x).mp hx)
        · rintro (hx | rfl)
          · by_cases hid : x.correlationId = req.correlationId
            · exact .inl (hclear req hreq x hx hid)
            · exact .inr ⟨(h x).mpr hx, hid⟩
          · exact .inl rfl
  | matchResponse msg sender recipient =>
    rcases enter_matchResponse h with ⟨hsame, hnone⟩ | ⟨req, hmem, hanswered, heq⟩
    · rw [hsame]
      exact iff_of_true h fun req hmem hanswered ↦ absurd hanswered (hnone req hmem)
    · have hclear : Clear (.matchResponse msg sender recipient) v ↔
          req ∉ v.outstanding.erase req := by
        refine ⟨fun h ↦ h req hmem hanswered, fun h req' _ hanswered' ↦ ?_⟩
        rwa [Outstanding.eq_of_answeredBy hanswered' hanswered]
      rw [hclear, heq]
      constructor
      · intro hafter hagain
        have hrow := (hafter req).mpr hagain
        exact of_decide_eq_true (List.mem_filter.mp hrow).2 rfl
      · intro honce x
        change x ∈ v.tracker.outstanding.rows.filter _ ↔ x ∈ v.outstanding.erase req
        rw [List.mem_filter, h x]
        by_cases hx : x = req
        · rw [hx]
          exact iff_of_false (fun hrow ↦ of_decide_eq_true hrow.2 rfl) honce
        · rw [List.mem_erase_of_ne hx]
          refine ⟨fun hrow ↦ hrow.1, fun hx' ↦ ⟨hx', decide_eq_true fun hid ↦ hx ?_⟩⟩
          exact Keyed.eq_of_key_eq ((h x).mpr hx') ((h req).mpr hmem) hid
  | expireFrom member =>
    refine iff_of_true (fun x ↦ ?_) trivial
    change x ∈ v.tracker.outstanding.rows.filter _ ↔ x ∈ v.outstanding.filter _
    rw [List.mem_filter, List.mem_filter, h x]

/-- A call that is clear leaves the requests of the others in the tracker. -/
theorem keeps_of_clear (h : Mirrors v) (hclear : Clear call v) : Keeps call v := by
  rintro msg sender recipient rfl old hold hother
  cases hreq : requestOf msg sender recipient with
  | none => rwa [enter_register_of_none hreq]
  | some req =>
    refine (mem_register_iff hreq).mpr ?_
    by_cases hid : old.correlationId = req.correlationId
    · exact .inl (hclear req hreq old ((h old).mp hold) hid)
    · exact .inr ⟨hold, hid⟩

/-! ## The answers -/

/-- Every response that was accepted has answered a registration of its own. -/
structure Accounts (v : Ledger) : Prop where
  registered : (v.answered ++ v.outstanding).Subperm v.registered
  accepted : v.answered.length = v.accepted

theorem accounts_enter (hmirrors : Mirrors v) (h : Accounts v) : Accounts (enter call v) := by
  cases call with
  | register msg sender recipient =>
    refine ⟨?_, h.accepted⟩
    change (v.answered ++ (v.outstanding ++ _)).Subperm (v.registered ++ _)
    rw [← List.append_assoc]
    exact (List.subperm_append_right _).mpr h.registered
  | matchResponse msg sender recipient =>
    rcases enter_matchResponse hmirrors with ⟨hsame, -⟩ | ⟨req, hmem, -, heq⟩
    · rwa [hsame]
    · rw [heq]
      refine ⟨?_, ?_⟩
      · rw [List.append_assoc, List.singleton_append]
        have hperm := (List.perm_cons_erase hmem).append_left v.answered
        exact hperm.symm.subperm.trans h.registered
      · rw [List.length_append, List.length_singleton, h.accepted]
  | expireFrom member =>
    refine ⟨?_, h.accepted⟩
    have hsub : (v.outstanding.filter fun req ↦
        !decide (req.sender = member ∨ req.recipient = member)).Sublist v.outstanding :=
      List.filter_sublist
    exact (hsub.append_left v.answered).subperm.trans h.registered

end Ledger

open Ledger

/-- What is invariant along a run of clear calls. -/
def Mirrored (v : Ledger) : Prop := Mirrors v ∧ Sound v ∧ Accounts v

theorem mirrored_start : Mirrored start := by
  refine ⟨fun _ ↦ Iff.rfl, ⟨fun _ h ↦ ?_, fun _ h ↦ ?_⟩, ⟨List.Subperm.refl _, rfl⟩⟩
  · cases h
  · cases h

/-- **The tracker is exact** if and only if no correlation id is used twice at a time, save for a
request that is registered again as it is and not answered while it is outstanding twice. -/
theorem tracks_iff (calls : List TrackerCall) : Tracks calls ↔ Along enter Clear calls start := by
  have hexact {call : TrackerCall} {v : Ledger} (h : Mirrored v) :
      Exact (enter call v) ↔ Clear call v :=
    (exact_iff_mirrors (sound_enter h.1 h.2.1)).trans (mirrors_enter_iff h.1)
  have hstep (call : TrackerCall) (v : Ledger) (h : Mirrored v) (hclear : Clear call v) :
      Mirrored (enter call v) :=
    ⟨(mirrors_enter_iff h.1).mpr hclear, sound_enter h.1 h.2.1, accounts_enter h.1 h.2.2⟩
  have hiff : Along enter (fun call v ↦ Exact (enter call v)) calls start ↔
      Along enter Clear calls start :=
    along_iff_along (fun call v h hnext ↦ hstep call v h ((hexact h).mp hnext))
      (fun call v h ↦ hexact h) calls mirrored_start
  refine ⟨fun h ↦ hiff.mp h.exact, fun h ↦ ⟨hiff.mpr h, ?_, ?_⟩⟩
  · obtain ⟨-, -, haccounts⟩ := h.run hstep mirrored_start
    refine ⟨List.Subperm.trans ?_ haccounts.registered, haccounts.accepted⟩
    exact (List.sublist_append_left _ _).subperm
  · exact h.imp hstep (fun call v hmirrored hclear ↦ keeps_of_clear hmirrored.1 hclear)
      mirrored_start

/-- A member takes the id of another's request, and the answer to that one is refused. -/
theorem not_tracks_taken_id : ¬ ∀ calls, Tracks calls := by
  intro h
  have hkeeps := (h [.register (.planApprovalRequest "c" "plan") "mem_anna" "lead",
    .register (.shutdownRequest "c") "mem_bert" "mem_carl"]).keeps
  have hkept := hkeeps.2.1 _ _ _ rfl ⟨"c", .planApprovalRequest, "mem_anna", "lead"⟩
    (by decide) (by decide)
  revert hkept
  decide

end QwenHarness.Teams
