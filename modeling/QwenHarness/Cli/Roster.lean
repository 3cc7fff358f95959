import QwenHarness.Teams.Recovery
import Mathlib.Data.List.Induction

/-!
# The roster of a team

The log of a team tells who registered, whose heartbeats came and who stopped. A registration
begins a new incarnation of a member, but the heartbeats and the stops go by the member alone, and
so do those that come late from an incarnation before.

The status of a member is that of its latest incarnation if and only if what the log says of its
other incarnations after the registration makes no difference (`reports_iff`).
-/

namespace QwenHarness.Cli

open Teams

/-! ## The log -/

/-- What an entry of the log says about a member. -/
inductive TeamRecord
  | member (member incarnation : String)
  | heartbeat (member incarnation : String)
  | stopped (member incarnation : String)
  /-- Anything else, also a record that cannot be read. -/
  | other
deriving DecidableEq, Repr

structure TeamEvent where
  record : TeamRecord
  timestamp : ℤ
deriving DecidableEq, Repr

structure RosterEntry where
  member : String
  incarnation : String
  registeredAt : ℤ
  lastHeartbeatAt : ℤ
  stopped : Bool
deriving DecidableEq, Repr

/-- Read one more event. -/
def enterRoster (roster : List (String × RosterEntry)) (event : TeamEvent) :
    List (String × RosterEntry) :=
  match event.record with
  | .member member incarnation =>
    Assoc.alter member
      (fun _ ↦ ⟨member, incarnation, event.timestamp, event.timestamp, false⟩) roster
  | .heartbeat member _ =>
    Assoc.modify member (fun entry ↦ { entry with lastHeartbeatAt := event.timestamp }) roster
  | .stopped member _ => Assoc.modify member (fun entry ↦ { entry with stopped := true }) roster
  | .other => roster

/-- The roster, from the log. -/
def readRoster (log : List TeamEvent) : List (String × RosterEntry) := log.foldl enterRoster []

structure MemberStatus where
  member : String
  incarnation : String
  state : IncarnationState
  lastHeartbeatAt : ℤ
deriving DecidableEq, Repr

section Status

variable (now timeoutMs : ℤ)

/-- Add the status of one more entry. -/
def addStatus (acc : TeamRecovery × List MemberStatus) (entry : RosterEntry) :
    TeamRecovery × List MemberStatus :=
  let spawned := acc.1.spawn entry.member entry.incarnation entry.registeredAt
  let heard := (spawned.heartbeat entry.member entry.incarnation entry.lastHeartbeatAt).2
  let recovery := (heard.detectLost now).2
  let state : IncarnationState :=
    if entry.stopped then .stopped
    else if recovery.state entry.member = some .lost then .lost else .running
  (recovery, acc.2 ++ [⟨entry.member, entry.incarnation, state, entry.lastHeartbeatAt⟩])

/-- The status of every member, in the order of their names. -/
def teamStatus (localeBefore : String → String → Bool) (log : List TeamEvent) :
    List MemberStatus :=
  let out := ((readRoster log).map Prod.snd).foldl (addStatus now)
    (TeamRecovery.fresh ⟨timeoutMs, timeoutMs⟩, [])
  out.2.mergeSort fun a b ↦ localeBefore a.member b.member

/-! ## What a status is -/

/-- The status that follows from an entry alone. -/
def RosterEntry.status (entry : RosterEntry) : MemberStatus :=
  { member := entry.member
    incarnation := entry.incarnation
    state :=
      if entry.stopped then .stopped
      else if timeoutMs < now - entry.lastHeartbeatAt then .lost else .running
    lastHeartbeatAt := entry.lastHeartbeatAt }

/-- What an entry has to do with the others does not show in its status. -/
theorem addStatus_eq (acc : TeamRecovery × List MemberStatus) (entry : RosterEntry)
    (h : acc.1.opts.heartbeatTimeoutMs = timeoutMs) :
    (addStatus now acc entry).1.opts.heartbeatTimeoutMs = timeoutMs ∧
      (addStatus now acc entry).2 = acc.2 ++ [entry.status now timeoutMs] := by
  have hspawn := TeamRecovery.lookup_spawn acc.1 entry.member entry.incarnation entry.registeredAt
    entry.member
  rw [if_pos rfl] at hspawn
  have hheard := TeamRecovery.lookup_heartbeat entry.lastHeartbeatAt hspawn rfl rfl
  have hopts : (((acc.1.spawn entry.member entry.incarnation entry.registeredAt).heartbeat
      entry.member entry.incarnation entry.lastHeartbeatAt).2).opts.heartbeatTimeoutMs
      = timeoutMs := by
    rw [TeamRecovery.heartbeat_opts]
    exact h
  have hstate := TeamRecovery.state_detectLost now hheard rfl
  rw [hopts] at hstate
  refine ⟨hopts, ?_⟩
  rw [addStatus, RosterEntry.status]
  simp only [hstate, Option.some_inj]
  have hne : IncarnationState.running ≠ .lost := by decide
  by_cases hold : timeoutMs < now - entry.lastHeartbeatAt
  · rw [if_pos hold, if_pos (rfl : IncarnationState.lost = .lost)]
  · rw [if_neg hold, if_neg hne]

theorem foldl_addStatus (entries : List RosterEntry) (acc : TeamRecovery × List MemberStatus)
    (h : acc.1.opts.heartbeatTimeoutMs = timeoutMs) :
    (entries.foldl (addStatus now) acc).2
      = acc.2 ++ entries.map fun entry ↦ entry.status now timeoutMs := by
  induction entries generalizing acc with
  | nil => rw [List.foldl_nil, List.map_nil, List.append_nil]
  | cons entry entries ih =>
    obtain ⟨hopts, hout⟩ := addStatus_eq now timeoutMs acc entry h
    rw [List.foldl_cons, ih _ hopts, hout, List.append_assoc, List.map_cons,
      List.singleton_append]

variable {now timeoutMs}

variable (now timeoutMs) in
theorem teamStatus_perm (localeBefore : String → String → Bool) (log : List TeamEvent) :
    (teamStatus now timeoutMs localeBefore log).Perm
      ((readRoster log).map fun x ↦ x.2.status now timeoutMs) := by
  rw [teamStatus]
  refine (List.mergeSort_perm _ _).trans (.of_eq ?_)
  rw [foldl_addStatus now timeoutMs _ _ rfl, List.nil_append, List.map_map]
  rfl

end Status

/-! ## Tenures -/

/-- The member is in an incarnation that it registered at a time, and these are the events after
its last registration. -/
structure MemberTenure (log : List TeamEvent) (member incarnation : String) (registeredAt : ℤ)
    (after : List TeamEvent) : Prop where
  split : ∃ before, log = before ++ ⟨.member member incarnation, registeredAt⟩ :: after
  last : ∀ event ∈ after, ∀ incarnation', event.record ≠ .member member incarnation'

/-- When the last of the events came, or the member registered. -/
def lastOf (p : TeamEvent → Bool) (registeredAt : ℤ) (after : List TeamEvent) : ℤ :=
  ((after.filter p).getLast?.map TeamEvent.timestamp).getD registeredAt

/-- A heartbeat of the member, whatever incarnation it is from. -/
def TeamEvent.isHeartbeat (member : String) (event : TeamEvent) : Bool :=
  match event.record with
  | .heartbeat member' _ => decide (member' = member)
  | _ => false

def TeamEvent.isStopped (member : String) (event : TeamEvent) : Bool :=
  match event.record with
  | .stopped member' _ => decide (member' = member)
  | _ => false

/-- When the incarnation was last heard of. -/
def ownHeartbeatAt (member incarnation : String) (registeredAt : ℤ) (after : List TeamEvent) : ℤ :=
  lastOf (fun event ↦ decide (event.record = .heartbeat member incarnation)) registeredAt after

/-- The incarnation has said that it stops. -/
def OwnStopped (member incarnation : String) (after : List TeamEvent) : Prop :=
  ∃ event ∈ after, event.record = .stopped member incarnation

instance (member incarnation : String) (after : List TeamEvent) :
    Decidable (OwnStopped member incarnation after) :=
  inferInstanceAs (Decidable (∃ event ∈ after, _))

/-- The state of the incarnation, by its own records. -/
def ownState (now timeoutMs : ℤ) (member incarnation : String) (registeredAt : ℤ)
    (after : List TeamEvent) : IncarnationState :=
  if OwnStopped member incarnation after then .stopped
  else if timeoutMs < now - ownHeartbeatAt member incarnation registeredAt after then .lost
  else .running

/-- What the roster has of a tenure. -/
def tenureEntry (member incarnation : String) (registeredAt : ℤ) (after : List TeamEvent) :
    RosterEntry where
  member := member
  incarnation := incarnation
  registeredAt := registeredAt
  lastHeartbeatAt := lastOf (TeamEvent.isHeartbeat member) registeredAt after
  stopped := after.any (TeamEvent.isStopped member)

section MemberTenure

variable {log after : List TeamEvent} {member incarnation : String} {registeredAt : ℤ}
  {event : TeamEvent}

theorem lastOf_concat (p : TeamEvent → Bool) :
    lastOf p registeredAt (after ++ [event]) =
      if p event then event.timestamp else lastOf p registeredAt after := by
  rw [lastOf, List.filter_append, List.filter_singleton]
  cases p event with
  | true =>
    rw [Bool.cond_true, List.getLast?_concat]
    rfl
  | false =>
    rw [Bool.cond_false, List.append_nil]
    rfl

theorem MemberTenure.concat (h : MemberTenure log member incarnation registeredAt after)
    (hother : ∀ incarnation', event.record ≠ .member member incarnation') :
    MemberTenure (log ++ [event]) member incarnation registeredAt (after ++ [event]) := by
  obtain ⟨before, rfl⟩ := h.split
  refine ⟨⟨before, by rw [List.append_assoc, List.cons_append]⟩, fun e he ↦ ?_⟩
  rcases List.mem_append.mp he with he | he
  · exact h.last e he
  · rw [List.mem_singleton.mp he]
    exact hother

/-- Another event of the tenure adds to what the roster has of it. -/
theorem lookup_enterRoster {roster : List (String × RosterEntry)}
    (h : roster.lookup member = some (tenureEntry member incarnation registeredAt after))
    (hother : ∀ incarnation', event.record ≠ .member member incarnation') :
    (enterRoster roster event).lookup member
      = some (tenureEntry member incarnation registeredAt (after ++ [event])) := by
  have hany : (after ++ [event]).any (TeamEvent.isStopped member)
      = (after.any (TeamEvent.isStopped member) || event.isStopped member) := by
    rw [List.any_append, List.any_cons, List.any_nil, Bool.or_false]
  rw [enterRoster, tenureEntry, lastOf_concat, hany]
  cases hrecord : event.record with
  | member member' incarnation' =>
    have hne : member ≠ member' := by
      rintro rfl
      exact hother incarnation' hrecord
    have hbeat : event.isHeartbeat member = false := by rw [TeamEvent.isHeartbeat, hrecord]
    have hstop : event.isStopped member = false := by rw [TeamEvent.isStopped, hrecord]
    rw [Assoc.lookup_alter, if_neg hne, h, hbeat, hstop, Bool.or_false]
    rfl
  | heartbeat member' incarnation' =>
    have hbeat : event.isHeartbeat member = decide (member' = member) := by
      rw [TeamEvent.isHeartbeat, hrecord]
    have hstop : event.isStopped member = false := by rw [TeamEvent.isStopped, hrecord]
    rw [Assoc.lookup_modify, hbeat, hstop, Bool.or_false]
    by_cases hmember : member = member'
    · rw [if_pos hmember, ← hmember, h, decide_eq_true rfl]
      rfl
    · rw [if_neg hmember, h, decide_eq_false (Ne.symm hmember)]
      rfl
  | stopped member' incarnation' =>
    have hbeat : event.isHeartbeat member = false := by rw [TeamEvent.isHeartbeat, hrecord]
    have hstop : event.isStopped member = decide (member' = member) := by
      rw [TeamEvent.isStopped, hrecord]
    rw [Assoc.lookup_modify, hbeat, hstop]
    by_cases hmember : member = member'
    · rw [if_pos hmember, ← hmember, h, decide_eq_true rfl, Bool.or_true]
      rfl
    · rw [if_neg hmember, h, decide_eq_false (Ne.symm hmember), Bool.or_false]
      rfl
  | other =>
    have hbeat : event.isHeartbeat member = false := by rw [TeamEvent.isHeartbeat, hrecord]
    have hstop : event.isStopped member = false := by rw [TeamEvent.isStopped, hrecord]
    rw [h, hbeat, hstop, Bool.or_false]
    rfl

theorem readRoster_concat (log : List TeamEvent) (event : TeamEvent) :
    readRoster (log ++ [event]) = enterRoster (readRoster log) event := by
  rw [readRoster, List.foldl_append]
  rfl

/-- **The roster has the tenure of a member.** -/
theorem lookup_readRoster (h : MemberTenure log member incarnation registeredAt after) :
    (readRoster log).lookup member
      = some (tenureEntry member incarnation registeredAt after) := by
  obtain ⟨before, rfl⟩ := h.split
  have hlast := h.last
  clear h
  induction after using List.reverseRecOn with
  | nil =>
    rw [readRoster_concat]
    exact (Assoc.lookup_alter member).trans (if_pos rfl)
  | append_singleton after event ih =>
    have hsplit : before ++ ⟨.member member incarnation, registeredAt⟩ :: (after ++ [event])
        = (before ++ ⟨.member member incarnation, registeredAt⟩ :: after) ++ [event] := by
      rw [List.append_assoc, List.cons_append]
    rw [hsplit, readRoster_concat]
    refine lookup_enterRoster (ih fun e he ↦ hlast e (List.mem_append_left _ he)) ?_
    exact hlast event (List.mem_append_right _ (List.mem_singleton.mpr rfl))

/-- Only a registration puts a member into the roster. -/
theorem exists_lookup_of_enterRoster {roster : List (String × RosterEntry)} {entry : RosterEntry}
    (h : (enterRoster roster event).lookup member = some entry)
    (hother : ∀ incarnation', event.record ≠ .member member incarnation') :
    ∃ old, roster.lookup member = some old := by
  have hmodify {member' : String} {f : RosterEntry → RosterEntry}
      (h : (Assoc.modify member' f roster).lookup member = some entry) :
      ∃ old, roster.lookup member = some old := by
    rw [Assoc.lookup_modify] at h
    split at h
    · next hmember =>
      obtain ⟨old, hold, -⟩ := Option.map_eq_some_iff.mp h
      exact ⟨old, hmember ▸ hold⟩
    · exact ⟨entry, h⟩
  rw [enterRoster] at h
  cases hrecord : event.record with
  | member member' incarnation' =>
    rw [hrecord] at h
    have hne : member ≠ member' := by
      rintro rfl
      exact hother incarnation' hrecord
    exact ⟨entry, ((Assoc.lookup_alter member).trans (if_neg hne)).symm.trans h⟩
  | heartbeat member' incarnation' =>
    rw [hrecord] at h
    exact hmodify h
  | stopped member' incarnation' =>
    rw [hrecord] at h
    exact hmodify h
  | other =>
    rw [hrecord] at h
    exact ⟨entry, h⟩

/-- Who is in the roster has registered. -/
theorem exists_tenure {entry : RosterEntry} (h : (readRoster log).lookup member = some entry) :
    ∃ incarnation registeredAt after, MemberTenure log member incarnation registeredAt after := by
  induction log using List.reverseRecOn generalizing entry with
  | nil => cases h
  | append_singleton log event ih =>
    by_cases hreg : ∃ incarnation, event.record = .member member incarnation
    · obtain ⟨incarnation, hrecord⟩ := hreg
      refine ⟨incarnation, event.timestamp, [], ⟨log, ?_⟩, fun _ he ↦ ?_⟩
      · rw [← hrecord]
      · cases he
    · have hother : ∀ incarnation, event.record ≠ .member member incarnation :=
        fun incarnation hrecord ↦ hreg ⟨incarnation, hrecord⟩
      rw [readRoster_concat] at h
      obtain ⟨old, hold⟩ := exists_lookup_of_enterRoster h hother
      obtain ⟨incarnation, registeredAt, after, htenure⟩ := ih hold
      exact ⟨incarnation, registeredAt, after ++ [event], htenure.concat hother⟩

theorem nodup_readRoster (log : List TeamEvent) : ((readRoster log).map Prod.fst).Nodup := by
  induction log using List.reverseRecOn with
  | nil => exact List.nodup_nil
  | append_singleton log event ih =>
    rw [readRoster_concat, enterRoster]
    split
    · exact Assoc.nodup_alter ih
    · rwa [Assoc.map_fst_modify]
    · rwa [Assoc.map_fst_modify]
    · exact ih

/-! ## Whose records count -/

/-- **What a status is to tell**: the latest incarnation of every member, and its state and last
heartbeat by its own records. -/
structure Reports (now timeoutMs : ℤ) (localeBefore : String → String → Bool)
    (log : List TeamEvent) : Prop where
  once : ((teamStatus now timeoutMs localeBefore log).map MemberStatus.member).Nodup
  latest : ∀ s ∈ teamStatus now timeoutMs localeBefore log,
    ∃ registeredAt after, MemberTenure log s.member s.incarnation registeredAt after
  own : ∀ member incarnation registeredAt after,
    MemberTenure log member incarnation registeredAt after →
    ⟨member, incarnation, ownState now timeoutMs member incarnation registeredAt after,
      ownHeartbeatAt member incarnation registeredAt after⟩
        ∈ teamStatus now timeoutMs localeBefore log
  fresh : ∀ member incarnation registeredAt after,
    MemberTenure log member incarnation registeredAt after →
    timeoutMs < now - ownHeartbeatAt member incarnation registeredAt after →
    ∀ s ∈ teamStatus now timeoutMs localeBefore log, s.member = member → s.state ≠ .running

/-- What others have sent since a member registered makes no difference: the last heartbeat came
when its own did, and it has stopped itself if anybody says that it did. -/
def Unmixed (log : List TeamEvent) : Prop :=
  ∀ member incarnation registeredAt after, MemberTenure log member incarnation registeredAt after →
    lastOf (TeamEvent.isHeartbeat member) registeredAt after
        = ownHeartbeatAt member incarnation registeredAt after ∧
      ((∃ event ∈ after, event.isStopped member = true) → OwnStopped member incarnation after)

variable {now timeoutMs : ℤ} {localeBefore : String → String → Bool}

theorem mem_teamStatus_iff {s : MemberStatus} :
    s ∈ teamStatus now timeoutMs localeBefore log ↔
      ∃ member incarnation registeredAt after,
        MemberTenure log member incarnation registeredAt after ∧
          s = (tenureEntry member incarnation registeredAt after).status now timeoutMs := by
  rw [(teamStatus_perm now timeoutMs localeBefore log).mem_iff, List.mem_map]
  constructor
  · rintro ⟨⟨member, entry⟩, hmem, rfl⟩
    have hlookup := (Assoc.mem_iff_lookup (nodup_readRoster log)).mp hmem
    obtain ⟨incarnation, registeredAt, after, htenure⟩ := exists_tenure hlookup
    have heq := Option.some.inj (hlookup.symm.trans (lookup_readRoster htenure))
    exact ⟨member, incarnation, registeredAt, after, htenure, by rw [heq]⟩
  · rintro ⟨member, incarnation, registeredAt, after, htenure, rfl⟩
    exact ⟨_, (Assoc.mem_iff_lookup (nodup_readRoster log)).mpr (lookup_readRoster htenure), rfl⟩

/-- A member has one status. -/
theorem nodup_teamStatus : ((teamStatus now timeoutMs localeBefore log).map
    MemberStatus.member).Nodup := by
  have hperm := (teamStatus_perm now timeoutMs localeBefore log).map
    MemberStatus.member
  have hmembers : ((readRoster log).map fun x ↦ x.2.status now timeoutMs).map MemberStatus.member
      = (readRoster log).map Prod.fst := by
    rw [List.map_map]
    refine List.map_congr_left fun x hx ↦ ?_
    have hlookup := (Assoc.mem_iff_lookup (nodup_readRoster log)).mp hx
    obtain ⟨incarnation, registeredAt, after, htenure⟩ := exists_tenure hlookup
    have heq := Option.some.inj (hlookup.symm.trans (lookup_readRoster htenure))
    change x.2.member = x.1
    rw [heq]
    rfl
  rw [hperm.nodup_iff, hmembers]
  exact nodup_readRoster log

theorem any_of_ownStopped (h : OwnStopped member incarnation after) :
    ∃ event ∈ after, event.isStopped member = true := by
  obtain ⟨event, hmem, hrecord⟩ := h
  refine ⟨event, hmem, ?_⟩
  rw [TeamEvent.isStopped, hrecord]
  exact decide_eq_true rfl

theorem status_eq_iff (now timeoutMs : ℤ) (member incarnation : String) (registeredAt : ℤ)
    (after : List TeamEvent) :
    (tenureEntry member incarnation registeredAt after).status now timeoutMs =
        ⟨member, incarnation, ownState now timeoutMs member incarnation registeredAt after,
          ownHeartbeatAt member incarnation registeredAt after⟩ ↔
      lastOf (TeamEvent.isHeartbeat member) registeredAt after
          = ownHeartbeatAt member incarnation registeredAt after ∧
        ((∃ event ∈ after, event.isStopped member = true) →
          OwnStopped member incarnation after) := by
  rw [RosterEntry.status, tenureEntry, ownState, MemberStatus.mk.injEq, ← List.any_eq_true]
  simp only [true_and]
  rw [and_comm]
  refine and_congr_right fun hlast ↦ ?_
  rw [hlast]
  have hne : (if timeoutMs < now - ownHeartbeatAt member incarnation registeredAt after then
      IncarnationState.lost else .running) ≠ .stopped := by split <;> decide
  by_cases hown : OwnStopped member incarnation after
  · rw [if_pos hown, if_pos (List.any_eq_true.mpr (any_of_ownStopped hown))]
    exact iff_of_true rfl fun _ ↦ hown
  · rw [if_neg hown]
    by_cases hany : after.any (TeamEvent.isStopped member) = true
    · rw [if_pos hany]
      exact iff_of_false (Ne.symm hne) fun h ↦ hown (h hany)
    · rw [if_neg hany]
      exact iff_of_true rfl fun h ↦ absurd h hany

/-- **A status tells of the latest incarnation** if and only if the records of the others make no
difference to it. -/
theorem reports_iff (now timeoutMs : ℤ) (localeBefore : String → String → Bool)
    (log : List TeamEvent) : Reports now timeoutMs localeBefore log ↔ Unmixed log := by
  have hone {s s' : MemberStatus} (hs : s ∈ teamStatus now timeoutMs localeBefore log)
      (hs' : s' ∈ teamStatus now timeoutMs localeBefore log) (h : s.member = s'.member) : s = s' :=
    List.inj_on_of_nodup_map nodup_teamStatus hs hs' h
  have hmem {member incarnation : String} {registeredAt : ℤ} {after : List TeamEvent}
      (h : MemberTenure log member incarnation registeredAt after) :
      (tenureEntry member incarnation registeredAt after).status now timeoutMs
        ∈ teamStatus now timeoutMs localeBefore log := mem_teamStatus_iff.mpr ⟨_, _, _, _, h, rfl⟩
  constructor
  · intro h member incarnation registeredAt after htenure
    exact (status_eq_iff now timeoutMs member incarnation registeredAt after).mp
      (hone (hmem htenure) (h.own _ _ _ _ htenure) rfl)
  · intro h
    have hown (member incarnation : String) (registeredAt : ℤ) (after : List TeamEvent)
        (htenure : MemberTenure log member incarnation registeredAt after) :=
      (status_eq_iff now timeoutMs member incarnation registeredAt after).mpr
        (h member incarnation registeredAt after htenure)
    refine ⟨nodup_teamStatus, fun s hs ↦ ?_, fun member incarnation registeredAt after htenure ↦ ?_,
      fun member incarnation registeredAt after htenure hold s hs hsame ↦ ?_⟩
    · obtain ⟨member, incarnation, registeredAt, after, htenure, rfl⟩ := mem_teamStatus_iff.mp hs
      exact ⟨registeredAt, after, htenure⟩
    · rw [← hown member incarnation registeredAt after htenure]
      exact hmem htenure
    · rw [hone hs (hmem htenure) hsame, hown member incarnation registeredAt after htenure]
      change ownState now timeoutMs member incarnation registeredAt after ≠ .running
      rw [ownState, if_pos hold]
      split <;> decide

/-- The stop of a dead process stops the one that came after it. -/
theorem not_reports_late_stop :
    ¬ ∀ now timeoutMs localeBefore log, Reports now timeoutMs localeBefore log := by
  intro h
  have hreports := h 3 45000 (fun _ _ ↦ true)
    [⟨.member "anna" "first", 0⟩, ⟨.member "anna" "second", 1⟩, ⟨.stopped "anna" "first", 2⟩]
  have htenure : MemberTenure [⟨.member "anna" "first", 0⟩, ⟨.member "anna" "second", 1⟩,
      ⟨.stopped "anna" "first", 2⟩] "anna" "second" 1 [⟨.stopped "anna" "first", 2⟩] := by
    refine ⟨⟨[⟨.member "anna" "first", 0⟩], rfl⟩, fun event hmem _ heq ↦ ?_⟩
    rw [List.mem_singleton.mp hmem] at heq
    cases heq
  have hown := (teamStatus_perm _ _ _ _).mem_iff.mp (hreports.own _ _ _ _ htenure)
  revert hown
  decide

end MemberTenure

end QwenHarness.Cli
