import Mathlib.Data.List.Infix
import Mathlib.Logic.Function.Basic
import QwenHarness.Run.Along

/-!
# The queue of notifications

Notifications wait on four levels, first in, first out on each. A delivery draws from the highest
level with something in it and counts how often in a row it passed over a lower one. At ten it takes
the next lower one instead.

So a forced delivery helps one level, the first below the top. It may pass over all others once
more, and nothing says that it does not do so each time.
-/

namespace QwenHarness.Background.Notifications

/-! ## Kinds and levels -/

inductive NotificationKind where
  | approval
  | elicitation
  | shutdown
  | securityFailure
  | inputRequest
  | taskFailure
  | agentState
  | teamState
  | lostRemote
  | backgroundCompletion
  | cronFire
  | progress
  | status
deriving DecidableEq, Repr

inductive NotificationLevel where
  | one
  | two
  | three
  | four
deriving DecidableEq, Repr

def NotificationLevel.number : NotificationLevel → ℕ
  | .one => 1
  | .two => 2
  | .three => 3
  | .four => 4

def levelOf : NotificationKind → NotificationLevel
  | .approval | .elicitation | .shutdown | .securityFailure | .inputRequest => .one
  | .taskFailure | .agentState | .teamState | .lostRemote => .two
  | .backgroundCompletion | .cronFire => .three
  | .progress | .status => .four

structure Notification where
  id : String
  kind : NotificationKind
  level : NotificationLevel
  subjectId : String
  message : String
  createdAt : ℤ
deriving DecidableEq, Repr

def starvationThreshold : ℕ := 10

def levels : List NotificationLevel := [.one, .two, .three, .four]

/-! ## The queue -/

structure NotificationQueue where
  byLevel : NotificationLevel → List Notification
  /-- How many deliveries in a row passed over a lower notification. -/
  consecutiveHigh : ℕ

namespace NotificationQueue

def empty : NotificationQueue := ⟨fun _ ↦ [], 0⟩

variable (q : NotificationQueue)

def enqueue (notification : Notification) : NotificationQueue :=
  { q with
    byLevel := Function.update q.byLevel notification.level
      (q.byLevel notification.level ++ [notification]) }

def topLevel : Option NotificationLevel := levels.find? fun level ↦ !(q.byLevel level).isEmpty

/-- The highest level below this one with something in it. -/
def topLevelAbove (level : NotificationLevel) : Option NotificationLevel :=
  levels.find? fun candidate ↦
    decide (level.number < candidate.number) && !(q.byLevel candidate).isEmpty

/-- Take the first notification off a level. -/
def shift (level : NotificationLevel) (consecutiveHigh : ℕ) :
    Option Notification × NotificationQueue :=
  ((q.byLevel level).head?,
    ⟨Function.update q.byLevel level (q.byLevel level).tail, consecutiveHigh⟩)

def deliver : Option Notification × NotificationQueue :=
  match q.topLevel with
  | none => (none, q)
  | some top =>
    match q.topLevelAbove top with
    | none => q.shift top 0
    | some lower =>
      if starvationThreshold ≤ q.consecutiveHigh then q.shift lower 0
      else q.shift top (q.consecutiveHigh + 1)

/-- The level that a forced delivery goes to, if the next one is forced. -/
def forced : Option NotificationLevel :=
  match q.topLevel with
  | none => none
  | some top => if starvationThreshold ≤ q.consecutiveHigh then q.topLevelAbove top else none

end NotificationQueue

/-! ## What a delivery does -/

section Deliver

variable {q : NotificationQueue} {level top lower : NotificationLevel} {n : Notification}

open NotificationQueue

theorem mem_levels (level : NotificationLevel) : level ∈ levels := by
  cases level <;> decide

theorem number_injective : Function.Injective NotificationLevel.number := by
  intro a b h
  cases a <;> cases b <;> first | rfl | cases h

theorem pairwise_levels : levels.Pairwise fun a b ↦ a.number < b.number := by decide

theorem topLevel_eq_none_iff : q.topLevel = none ↔ ∀ level, q.byLevel level = [] := by
  rw [topLevel, List.find?_eq_none]
  refine ⟨fun h level ↦ ?_, fun h level _ ↦ ?_⟩
  · have hlevel := h level (mem_levels level)
    rwa [Bool.not_eq_true', Bool.not_eq_false, List.isEmpty_iff] at hlevel
  · rw [h level]
    exact Bool.false_ne_true

theorem byLevel_topLevel (h : q.topLevel = some top) : q.byLevel top ≠ [] := by
  have htop := List.find?_some h
  rwa [Bool.not_eq_true', List.isEmpty_eq_false_iff] at htop

theorem byLevel_topLevelAbove (h : q.topLevelAbove top = some lower) : q.byLevel lower ≠ [] := by
  have hlower := List.find?_some h
  rw [Bool.and_eq_true, Bool.not_eq_true', List.isEmpty_eq_false_iff] at hlower
  exact hlower.2

/-- A level with something in it is the top or below it. -/
theorem topLevel_number_le (h : q.topLevel = some top) (hne : q.byLevel level ≠ []) :
    top.number ≤ level.number := by
  obtain ⟨-, before, after, hsplit, hbefore⟩ := List.find?_eq_some_iff_append.mp h
  have hpairwise := pairwise_levels
  have hmem := mem_levels level
  rw [hsplit] at hpairwise hmem
  rcases List.mem_append.mp hmem with hmem | hmem
  · have hempty := hbefore level hmem
    rw [Bool.not_not, List.isEmpty_iff] at hempty
    exact absurd hempty hne
  · rcases List.mem_cons.mp hmem with rfl | hmem
    · exact le_rfl
    · have hafter := (List.pairwise_append.mp hpairwise).2.1
      exact ((List.pairwise_cons.mp hafter).1 level hmem).le

theorem topLevelAbove_ne_none (h : q.topLevel = some top) (hne : q.byLevel level ≠ [])
    (hother : level ≠ top) : q.topLevelAbove top ≠ none := by
  intro hnone
  have hlt : top.number < level.number :=
    (topLevel_number_le h hne).lt_of_ne fun heq ↦ hother (number_injective heq).symm
  refine List.find?_eq_none.mp hnone level (mem_levels level) ?_
  rw [Bool.and_eq_true, Bool.not_eq_true', List.isEmpty_eq_false_iff]
  exact ⟨decide_eq_true hlt, hne⟩

/-- Something is taken off a level that is not empty. -/
theorem shift_of_ne_nil (count : ℕ) (h : q.byLevel level ≠ []) :
    ∃ n rest, q.byLevel level = n :: rest ∧
      q.shift level count = (some n, ⟨Function.update q.byLevel level rest, count⟩) := by
  obtain ⟨n, rest, hcons⟩ := List.exists_cons_of_ne_nil h
  refine ⟨n, rest, hcons, ?_⟩
  rw [shift, hcons]
  rfl

/-- What a delivery may be: from the level that is forced, or from the top. -/
structure Delivery (q : NotificationQueue) (level : NotificationLevel) (n : Notification)
    (rest : List Notification) (count : ℕ) : Prop where
  byLevel : q.byLevel level = n :: rest
  deliver : q.deliver = (some n, ⟨Function.update q.byLevel level rest, count⟩)
  level : q.forced = some level ∧ count = 0 ∨
    q.forced = none ∧ q.topLevel = some level ∧
      (count = 0 ∧ q.topLevelAbove level = none ∨
        q.consecutiveHigh < starvationThreshold ∧ count = q.consecutiveHigh + 1)

/-- **A delivery** takes the first notification off one level, unless nothing waits. -/
theorem deliver_cases : q.deliver = (none, q) ∧ (∀ level, q.byLevel level = []) ∨
    ∃ level n rest count, Delivery q level n rest count := by
  cases htop : q.topLevel with
  | none =>
    refine .inl ⟨?_, topLevel_eq_none_iff.mp htop⟩
    rw [deliver, htop]
  | some top =>
    right
    cases hlower : q.topLevelAbove top with
    | none =>
      obtain ⟨n, rest, hcons, hshift⟩ := shift_of_ne_nil 0 (byLevel_topLevel htop)
      refine ⟨top, n, rest, 0, hcons, ?_, .inr ⟨?_, htop, .inl ⟨rfl, hlower⟩⟩⟩
      · rw [deliver, htop]
        dsimp only
        rw [hlower]
        exact hshift
      · rw [forced, htop]
        dsimp only
        rw [hlower, ite_self]
    | some lower =>
      by_cases hcount : starvationThreshold ≤ q.consecutiveHigh
      · obtain ⟨n, rest, hcons, hshift⟩ := shift_of_ne_nil 0 (byLevel_topLevelAbove hlower)
        refine ⟨lower, n, rest, 0, hcons, ?_, .inl ⟨?_, rfl⟩⟩
        · rw [deliver, htop]
          dsimp only
          rw [hlower]
          exact (if_pos hcount).trans hshift
        · rw [forced, htop]
          exact (if_pos hcount).trans hlower
      · obtain ⟨n, rest, hcons, hshift⟩ :=
          shift_of_ne_nil (q.consecutiveHigh + 1) (byLevel_topLevel htop)
        refine ⟨top, n, rest, q.consecutiveHigh + 1, hcons, ?_,
          .inr ⟨?_, htop, .inr ⟨Nat.lt_of_not_le hcount, rfl⟩⟩⟩
        · rw [deliver, htop]
          dsimp only
          rw [hlower]
          exact (if_neg hcount).trans hshift
        · rw [forced, htop]
          exact if_neg hcount

end Deliver

/-! ## Runs -/

inductive Op where
  | enqueue (notification : Notification)
  | deliver
deriving DecidableEq, Repr

def Op.isDeliver : Op → Bool
  | .enqueue _ => false
  | .deliver => true

/-- The queue after an operation. -/
def after (op : Op) (q : NotificationQueue) : NotificationQueue :=
  match op with
  | .enqueue n => q.enqueue n
  | .deliver => q.deliver.2

/-- What the operations deliver, in order. -/
def delivered : List Op → NotificationQueue → List Notification
  | [], _ => []
  | .enqueue n :: ops, q => delivered ops (q.enqueue n)
  | .deliver :: ops, q => q.deliver.1.toList ++ delivered ops q.deliver.2

/-- What the operations enqueue, in order. -/
def enqueued : List Op → List Notification
  | [] => []
  | .enqueue n :: ops => n :: enqueued ops
  | .deliver :: ops => enqueued ops

/-- Those of one level. -/
def ofLevel (level : NotificationLevel) (ns : List Notification) : List Notification :=
  ns.filter fun n ↦ decide (n.level = level)

/-- Each notification waits on its level. -/
def Placed (q : NotificationQueue) : Prop :=
  ∀ level, ∀ n ∈ q.byLevel level, n.level = level

section Order

variable {q : NotificationQueue} {level other : NotificationLevel} {n : Notification}
  {rest : List Notification} {count : ℕ} {ops : List Op}

open NotificationQueue

theorem byLevel_enqueue : (q.enqueue n).byLevel level =
    q.byLevel level ++ ofLevel level [n] := by
  dsimp only [enqueue, ofLevel]
  by_cases h : n.level = level
  · subst h
    rw [Function.update_self, List.filter_singleton, decide_eq_true rfl]
    rfl
  · rw [Function.update_of_ne (Ne.symm h), List.filter_singleton, decide_eq_false h]
    exact (List.append_nil _).symm

theorem Placed.enqueue (hq : Placed q) : Placed (q.enqueue n) := by
  intro level m hm
  rw [byLevel_enqueue] at hm
  rcases List.mem_append.mp hm with hm | hm
  · exact hq level m hm
  · exact of_decide_eq_true (List.mem_filter.mp hm).2

/-- On each level, a delivery takes the first one if it is from this level. -/
theorem Delivery.byLevel_eq (hq : Placed q) (h : Delivery q other n rest count) :
    q.byLevel level = ofLevel level [n] ++ q.deliver.2.byLevel level := by
  have hn : n.level = other := hq other n (h.byLevel ▸ List.mem_cons_self)
  rw [h.deliver]
  dsimp only
  by_cases heq : level = other
  · subst heq
    rw [Function.update_self, ofLevel, List.filter_singleton, decide_eq_true hn, h.byLevel]
    rfl
  · rw [Function.update_of_ne heq, ofLevel, List.filter_singleton,
      decide_eq_false fun h ↦ heq (h.symm.trans hn)]
    rfl

theorem byLevel_deliver (hq : Placed q) (level : NotificationLevel) :
    q.byLevel level = ofLevel level q.deliver.1.toList ++ q.deliver.2.byLevel level := by
  rcases @deliver_cases q with ⟨hdeliver, -⟩ | ⟨other, n, rest, count, h⟩
  · rw [hdeliver]
    rfl
  · rw [h.byLevel_eq hq, h.deliver]
    rfl

theorem Placed.deliver (hq : Placed q) : Placed q.deliver.2 := by
  intro level m hm
  refine hq level m ?_
  rw [byLevel_deliver hq level]
  exact List.mem_append_right _ hm

theorem placed_empty : Placed empty := by
  intro level n hn
  cases hn

/-- **First in, first out.** What was delivered from a level and what waits on it are what was
enqueued there, in this order. -/
theorem byLevel_run (hq : Placed q) (level : NotificationLevel) :
    ofLevel level (delivered ops q) ++ (Run.run after ops q).byLevel level =
      q.byLevel level ++ ofLevel level (enqueued ops) := by
  induction ops generalizing q with
  | nil => exact (List.append_nil _).symm
  | cons op ops ih =>
    cases op with
    | enqueue n =>
      rw [delivered, Run.run, enqueued]
      refine (ih hq.enqueue).trans ?_
      rw [byLevel_enqueue, List.append_assoc, ofLevel, ofLevel, ofLevel, ← List.filter_append]
      rfl
    | deliver =>
      rw [delivered, Run.run, enqueued, ofLevel, List.filter_append, List.append_assoc]
      refine (congrArg (_ ++ ·) (ih hq.deliver)).trans ?_
      rw [byLevel_deliver hq level, List.append_assoc]
      rfl

end Order

/-! ## How long a notification waits -/

/-- If a notification of this level waits, the next delivery is not forced to another level. On the
first level it does not matter. -/
def Spares (level : NotificationLevel) (op : Op) (q : NotificationQueue) : Prop :=
  op = .deliver → level = .one ∨ ∀ other ∈ q.forced, other = level

instance {level : NotificationLevel} {op : Op} {q : NotificationQueue} :
    Decidable (Spares level op q) :=
  inferInstanceAs (Decidable (op = .deliver → level = .one ∨ ∀ other ∈ q.forced, other = level))

/-- How many deliveries may pass over a level from now on. -/
def patience (level : NotificationLevel) (q : NotificationQueue) : ℕ :=
  if level = .one then (if starvationThreshold ≤ q.consecutiveHigh then 1 else 0)
  else starvationThreshold - q.consecutiveHigh

section Wait

variable {q : NotificationQueue} {level other : NotificationLevel} {n : Notification}
  {rest : List Notification} {count : ℕ} {ops : List Op}

open NotificationQueue

theorem patience_le : patience level q ≤ starvationThreshold := by
  rw [patience]
  split_ifs
  · decide
  · exact Nat.zero_le _
  · exact Nat.sub_le _ _

theorem threshold_le_of_forced (h : q.forced = some other) :
    starvationThreshold ≤ q.consecutiveHigh := by
  by_contra hlt
  rw [forced] at h
  cases htop : q.topLevel with
  | none =>
    rw [htop] at h
    cases h
  | some top =>
    rw [htop] at h
    cases (if_neg hlt).symm.trans h

/-- **A delivery that passes over a level** takes from its patience. -/
theorem Delivery.patience_lt (h : Delivery q other n rest count) (hother : other ≠ level)
    (hne : q.byLevel level ≠ []) (hspares : Spares level .deliver q) :
    patience level q.deliver.2 < patience level q := by
  have hcount : q.deliver.2.consecutiveHigh = count := by rw [h.deliver]
  rw [patience, patience, hcount]
  by_cases hone : level = .one
  · rw [if_pos hone, if_pos hone]
    rcases h.level with ⟨hforced, rfl⟩ | ⟨-, htop, -⟩
    · rw [if_pos (threshold_le_of_forced hforced), if_neg (by decide)]
      exact Nat.zero_lt_one
    · refine absurd (number_injective (le_antisymm (topLevel_number_le htop hne) ?_)) hother
      rw [hone]
      cases other <;> decide
  · rw [if_neg hone, if_neg hone]
    rcases h.level with ⟨hforced, -⟩ | ⟨-, htop, ⟨-, hnone⟩ | ⟨hlt, rfl⟩⟩
    · exact absurd ((hspares rfl).resolve_left hone other hforced) hother
    · exact absurd hnone (topLevelAbove_ne_none htop hne hother.symm)
    · exact Nat.sub_succ_lt_self _ _ hlt

/-- **How long a notification waits.** After eleven deliveries for itself and for each one before it
a notification has come out, if no forced delivery passed it over. -/
theorem comes_out {before behind : List Notification} (hq : Placed q)
    (hwaits : q.byLevel level = before ++ n :: behind)
    (hspares : Run.Along after (Spares level) ops q)
    (hcount : patience level q + 1 + 11 * before.length ≤ ops.countP Op.isDeliver) :
    before ++ [n] <+: ofLevel level (delivered ops q) := by
  induction ops generalizing q before behind with
  | nil =>
    rw [List.countP_nil] at hcount
    omega
  | cons op ops ih =>
    cases op with
    | enqueue m =>
      have hwaits' : (q.enqueue m).byLevel level =
          before ++ n :: (behind ++ ofLevel level [m]) := by
        rw [byLevel_enqueue, hwaits, List.append_assoc, List.cons_append]
      exact ih hq.enqueue hwaits' hspares.2 hcount
    | deliver =>
      have hne : q.byLevel level ≠ [] := by
        rw [hwaits]
        exact List.append_ne_nil_of_right_ne_nil _ (List.cons_ne_nil _ _)
      have hcons : (Op.deliver :: ops).countP Op.isDeliver = ops.countP Op.isDeliver + 1 :=
        List.countP_cons_of_pos rfl
      rcases @deliver_cases q with ⟨-, hnil⟩ | ⟨other, x, rest, count, h⟩
      · exact absurd (hnil level) hne
      · have hstep : q.byLevel level = ofLevel level [x] ++ q.deliver.2.byLevel level :=
          h.byLevel_eq hq
        have hdelivered : ofLevel level (delivered (.deliver :: ops) q) =
            ofLevel level [x] ++ ofLevel level (delivered ops q.deliver.2) := by
          rw [ofLevel, delivered, List.filter_append, h.deliver]
          rfl
        rw [hdelivered]
        rw [hwaits] at hstep
        by_cases hother : other = level
        · have hx : ofLevel level [x] = [x] := by
            have hlevel : x.level = level := hother ▸ hq other x (h.byLevel ▸ List.mem_cons_self)
            rw [ofLevel, List.filter_singleton, decide_eq_true hlevel]
            rfl
          rw [hx] at hstep ⊢
          cases before with
          | nil =>
            rw [(List.cons.inj hstep).1]
            exact List.prefix_append _ _
          | cons b before =>
            obtain ⟨rfl, hrest⟩ := List.cons.inj hstep
            refine (List.prefix_cons_inj b).mpr (ih hq.deliver hrest.symm hspares.2 ?_)
            have hle : patience level q.deliver.2 ≤ 10 := patience_le
            rw [hcons, List.length_cons] at hcount
            omega
        · have hx : ofLevel level [x] = [] := by
            have hlevel : x.level = other := hq other x (h.byLevel ▸ List.mem_cons_self)
            rw [ofLevel, List.filter_singleton,
              decide_eq_false fun heq ↦ hother (hlevel.symm.trans heq)]
            rfl
          rw [hx, List.nil_append] at hstep ⊢
          have hlt := h.patience_lt hother hne hspares.1
          refine ih hq.deliver hstep.symm hspares.2 ?_
          rw [hcons] at hcount
          omega

theorem deliver_eq_none_iff : q.deliver.1 = none ↔ ∀ level, q.byLevel level = [] := by
  rcases @deliver_cases q with ⟨hdeliver, hnil⟩ | ⟨level, n, rest, count, h⟩
  · rw [hdeliver]
    exact ⟨fun _ ↦ hnil, fun _ ↦ rfl⟩
  · rw [h.deliver]
    refine ⟨fun hnone ↦ (by cases hnone), fun hnil ↦ ?_⟩
    cases h.byLevel.symm.trans (hnil level)

theorem placed_run (hq : Placed q) : Placed (Run.run after ops q) := by
  induction ops generalizing q with
  | nil => exact hq
  | cons op ops ih =>
    cases op with
    | enqueue n => exact ih hq.enqueue
    | deliver => exact ih hq.deliver

/-- **A run of the queue.** Each level is first in, first out, nothing is delivered twice, and a
delivery comes to nothing only if nothing waits. A notification that no forced delivery passes over
comes out after eleven deliveries for itself and for each one before it, whatever is enqueued in the
meantime. -/
theorem queue_run (ops : List Op) :
    (∀ level, ofLevel level (delivered ops empty) ++ (Run.run after ops empty).byLevel level =
      ofLevel level (enqueued ops)) ∧
    ((Run.run after ops empty).deliver.1 = none ↔
      ∀ level, (Run.run after ops empty).byLevel level = []) ∧
    ∀ level before n behind ops',
      (Run.run after ops empty).byLevel level = before ++ n :: behind →
      Run.Along after (Spares level) ops' (Run.run after ops empty) →
      11 * (before.length + 1) ≤ ops'.countP Op.isDeliver →
      before ++ [n] <+: ofLevel level (delivered ops' (Run.run after ops empty)) := by
  refine ⟨fun level ↦ byLevel_run placed_empty level, deliver_eq_none_iff, ?_⟩
  intro level before n behind ops' hwaits hspares hcount
  refine comes_out (placed_run placed_empty) hwaits hspares ?_
  have hle : patience level (Run.run after ops empty) ≤ 10 := patience_le
  omega

/-- A progress note that waits alone. -/
theorem queue_run_oneNote :
    [⟨"ntf_1", .progress, .four, "task_1", "half way", 0⟩] <+:
      ofLevel .four (delivered (List.replicate 11 .deliver)
        (Run.run after [.enqueue ⟨"ntf_1", .progress, .four, "task_1", "half way", 0⟩] empty)) :=
  (queue_run [.enqueue ⟨"ntf_1", .progress, .four, "task_1", "half way", 0⟩]).2.2 .four []
    ⟨"ntf_1", .progress, .four, "task_1", "half way", 0⟩ [] (List.replicate 11 .deliver) rfl
    (by decide) (by decide)

end Wait

/-! ## Waiting forever -/

section Starve

variable {q : NotificationQueue}

open NotificationQueue

def exampleNotification (kind : NotificationKind) : Notification :=
  ⟨"ntf", kind, levelOf kind, "task", "message", 0⟩

/-- Before each delivery an approval and a failure come in. -/
def flood : ℕ → List Op
  | 0 => []
  | k + 1 => .enqueue (exampleNotification .approval) ::
      .enqueue (exampleNotification .taskFailure) :: .deliver :: flood k

theorem countP_flood (k : ℕ) : (flood k).countP Op.isDeliver = k := by
  induction k with
  | zero => rfl
  | succ k ih =>
    rw [flood, List.countP_cons_of_neg Bool.false_ne_true,
      List.countP_cons_of_neg Bool.false_ne_true, List.countP_cons_of_pos rfl, ih]

/-- As long as something waits on the first two levels, nothing comes from the others. -/
theorem Delivery.level_le {level : NotificationLevel} {n : Notification}
    {rest : List Notification} {count : ℕ} (h : Delivery q level n rest count)
    (hone : q.byLevel .one ≠ []) (htwo : q.byLevel .two ≠ []) : level.number ≤ 2 := by
  rw [← List.isEmpty_eq_false_iff] at hone htwo
  have htop : q.topLevel = some .one := by
    rw [topLevel, levels, List.find?_cons_of_pos]
    rw [hone]
    rfl
  rcases h.level with ⟨hforced, -⟩ | ⟨-, htop', -⟩
  · have hlower : q.topLevelAbove .one = some .two := by
      rw [topLevelAbove, levels, List.find?_cons_of_neg, List.find?_cons_of_pos]
      · rw [htwo]
        rfl
      · exact Bool.false_ne_true
    rw [forced, htop] at hforced
    dsimp only at hforced
    rw [if_pos (threshold_le_of_forced (by rwa [forced, htop])), hlower] at hforced
    rw [← Option.some.inj hforced]
    decide
  · rw [htop] at htop'
    rw [← Option.some.inj htop']
    decide

theorem level_le_of_mem_flood {k : ℕ} (hq : Placed q) :
    ∀ n ∈ delivered (flood k) q, n.level.number ≤ 2 := by
  induction k generalizing q with
  | zero =>
    intro n hn
    cases hn
  | succ k ih =>
    intro n hn
    have hq' : Placed ((q.enqueue (exampleNotification .approval)).enqueue
        (exampleNotification .taskFailure)) := hq.enqueue.enqueue
    rcases List.mem_append.mp hn with hn | hn
    · rcases @deliver_cases ((q.enqueue (exampleNotification .approval)).enqueue
          (exampleNotification .taskFailure)) with ⟨hnone, -⟩ | ⟨level, x, rest, count, h⟩
      · rw [hnone] at hn
        cases hn
      · have hone : ((q.enqueue (exampleNotification .approval)).enqueue
            (exampleNotification .taskFailure)).byLevel .one ≠ [] := by
          rw [byLevel_enqueue, byLevel_enqueue, List.append_assoc]
          exact List.append_ne_nil_of_right_ne_nil _ (List.cons_ne_nil _ _)
        have htwo : ((q.enqueue (exampleNotification .approval)).enqueue
            (exampleNotification .taskFailure)).byLevel .two ≠ [] := by
          rw [byLevel_enqueue]
          exact List.append_ne_nil_of_right_ne_nil _ (List.cons_ne_nil _ _)
        rw [h.deliver] at hn
        rw [List.mem_singleton.mp hn, hq' level x (h.byLevel ▸ List.mem_cons_self)]
        exact h.level_le hone htwo
    · exact ih hq'.deliver n hn

/-- Under such a flood the completion of a task never comes out, however long one waits. -/
theorem not_bounded_flood : ¬ ∃ bound : ℕ → ℕ, ∀ ops level before n behind ops',
    (Run.run after ops empty).byLevel level = before ++ n :: behind →
    bound before.length ≤ ops'.countP Op.isDeliver →
    n ∈ delivered ops' (Run.run after ops empty) := by
  rintro ⟨bound, h⟩
  have hmem := h [.enqueue (exampleNotification .backgroundCompletion)] .three []
    (exampleNotification .backgroundCompletion) [] (flood (bound 0)) rfl
    (countP_flood (bound 0)).ge
  exact absurd (level_le_of_mem_flood (placed_run placed_empty) _ hmem) (by decide)

end Starve

end QwenHarness.Background.Notifications
