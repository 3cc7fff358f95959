import QwenHarness.Table.Assoc
import Mathlib.Data.String.Basic

/-!
# Which incarnations are lost

A member of a team has one incarnation at a time. It is running while its heartbeats come, and lost
once the last of them is older than the timeout. A heartbeat counts for the incarnation that sent
it only.
-/

namespace QwenHarness.Teams

inductive IncarnationState
  | running
  | lost
  | stopped
deriving DecidableEq, Repr

structure MemberIncarnation where
  memberId : String
  incarnationId : String
  state : IncarnationState
  lastHeartbeatAt : ℤ
deriving DecidableEq, Repr

structure HeartbeatOptions where
  heartbeatTimeoutMs : ℤ
  leaseMs : ℤ

structure TeamRecovery where
  incarnations : List (String × MemberIncarnation)
  opts : HeartbeatOptions

namespace TeamRecovery

/-- A recovery that knows of nobody. -/
def fresh (opts : HeartbeatOptions) : TeamRecovery := ⟨[], opts⟩

/-- A new incarnation takes the place of the one before, which is lost. -/
def spawn (recovery : TeamRecovery) (memberId incarnationId : String) (now : ℤ) : TeamRecovery :=
  { recovery with
    incarnations := Assoc.alter memberId (fun _ ↦ ⟨memberId, incarnationId, .running, now⟩)
      recovery.incarnations }

def heartbeat (recovery : TeamRecovery) (memberId incarnationId : String) (now : ℤ) :
    Bool × TeamRecovery :=
  match recovery.incarnations.lookup memberId with
  | none => (false, recovery)
  | some inc =>
    if inc.incarnationId ≠ incarnationId ∨ inc.state ≠ .running then (false, recovery)
    else
      (true,
        { recovery with
          incarnations := Assoc.modify memberId (fun inc ↦ { inc with lastHeartbeatAt := now })
            recovery.incarnations })

/-- Is the incarnation running, and its last heartbeat older than the timeout? -/
def expired (recovery : TeamRecovery) (now : ℤ) (inc : MemberIncarnation) : Bool :=
  decide (inc.state = .running ∧ recovery.opts.heartbeatTimeoutMs < now - inc.lastHeartbeatAt)

/-- The incarnations that have expired are lost now, and their members are returned. -/
def detectLost (recovery : TeamRecovery) (now : ℤ) : List String × TeamRecovery :=
  ((recovery.incarnations.filter fun x ↦ recovery.expired now x.2).map fun x ↦ x.2.memberId,
    { recovery with
      incarnations := recovery.incarnations.map fun x ↦
        (x.1, if recovery.expired now x.2 then { x.2 with state := .lost } else x.2) })

/-- The state of a member, if there is one. -/
def state (recovery : TeamRecovery) (memberId : String) : Option IncarnationState :=
  (recovery.incarnations.lookup memberId).map MemberIncarnation.state

/-! ## What the calls do -/

variable {recovery : TeamRecovery} {memberId incarnationId : String} {now : ℤ}

theorem lookup_spawn (recovery : TeamRecovery) (memberId incarnationId : String) (now : ℤ)
    (memberId' : String) :
    (recovery.spawn memberId incarnationId now).incarnations.lookup memberId' =
      if memberId' = memberId then some ⟨memberId, incarnationId, .running, now⟩
      else recovery.incarnations.lookup memberId' :=
  Assoc.lookup_alter memberId'

theorem lookup_heartbeat {inc : MemberIncarnation} (now : ℤ)
    (h : recovery.incarnations.lookup memberId = some inc)
    (hid : inc.incarnationId = incarnationId) (hstate : inc.state = .running) :
    (recovery.heartbeat memberId incarnationId now).2.incarnations.lookup memberId
      = some { inc with lastHeartbeatAt := now } := by
  rw [heartbeat, h]
  simp only [if_neg (not_or.mpr ⟨not_not.mpr hid, not_not.mpr hstate⟩)]
  rw [Assoc.lookup_modify, if_pos rfl, h, Option.map_some]

@[simp] theorem heartbeat_opts :
    (recovery.heartbeat memberId incarnationId now).2.opts = recovery.opts := by
  rw [heartbeat]
  split
  · rfl
  · split <;> rfl

theorem lookup_detectLost (memberId : String) :
    (recovery.detectLost now).2.incarnations.lookup memberId =
      (recovery.incarnations.lookup memberId).map fun inc ↦
        if recovery.expired now inc then { inc with state := .lost } else inc := by
  change (recovery.incarnations.map _).lookup memberId = _
  induction recovery.incarnations with
  | nil => rfl
  | cons x xs ih =>
    rw [List.map_cons, Assoc.lookup_cons_eq, Assoc.lookup_cons_eq, ih]
    by_cases hkey : memberId = x.1
    · rw [if_pos hkey, if_pos hkey]
      rfl
    · rw [if_neg hkey, if_neg hkey]

/-- **A running incarnation is lost** once its last heartbeat is older than the timeout. -/
theorem state_detectLost {inc : MemberIncarnation} (now : ℤ)
    (h : recovery.incarnations.lookup memberId = some inc) (hstate : inc.state = .running) :
    (recovery.detectLost now).2.state memberId = some
      (if recovery.opts.heartbeatTimeoutMs < now - inc.lastHeartbeatAt then .lost
        else .running) := by
  rw [state, lookup_detectLost, h, Option.map_some, Option.map_some, expired, hstate]
  by_cases hold : recovery.opts.heartbeatTimeoutMs < now - inc.lastHeartbeatAt
  · rw [if_pos hold, if_pos (decide_eq_true ⟨rfl, hold⟩)]
  · rw [if_neg hold, if_neg (by simp [hold]), hstate]

end TeamRecovery

end QwenHarness.Teams
