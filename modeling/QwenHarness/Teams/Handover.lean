import QwenHarness.Run.Along
import QwenHarness.Teams.Steps

/-!
# A step that comes back late

A step that waits for its work keeps the id of its task, and no more. While it waits the task may be
taken back and claimed again, also by the same member. When the work returns, the step completes or
releases the task all the same: it ends the tenure of somebody else. It leaves a task in its own
hands when it fails between the claim and the end, which happens if the task cannot be started or if
the work throws.

These are the only ways. A run in which none of them occurs is one in which every step ends its own
tenure and no other.
-/

namespace QwenHarness.Teams

open Tasks

variable {ι : Type} {db db' : TaskDb}

/-! ## What is asked -/

/-- The task of the step is held under the claim of the step. -/
def Holds (db : TaskDb) (w : Work ι) : Prop :=
  ∃ τ, tenure db w.taskId = some τ ∧ τ.claim = some w.claim

/-- Every task that was claimed since is held by a step at work. -/
def NothingStranded (base : ℕ) (team : Team ι) : Prop :=
  ∀ id τ c, tenure team.db id = some τ → τ.claim = some c → base < c →
    ∃ w ∈ team.working, w.taskId = id ∧ w.claim = c

section Asked

variable [DecidableEq ι] (ctx : ι → TeammateContext)

/-- What is asked of a move. -/
structure Rightful (base : ℕ) (move : Move ι) (team : Team ι) : Prop where
  /-- A step changes its task only while its member holds it, under the claim of the step. -/
  held : ∀ k outcome now w, move = .endStep k outcome now → team.working[k]? = some w →
    (endStep now (ctx w.mate) outcome w.taskId team.db).1 = true →
      ∃ s, tenure team.db w.taskId = some ⟨s, some (ctx w.mate).memberId, some w.claim⟩
  once : ∀ id, completions (team.move ctx move).db id ≤ 1
  kept : NothingStranded base (team.move ctx move)

/-- The moves that do not go wrong. -/
def Careful (move : Move ι) (team : Team ι) : Prop :=
  match move with
  | .beginStep i aborted _ =>
    (team.mates i).goesOn aborted = true → isOwnerId (ctx i).memberId = true →
      ∀ task, (claimable team.db).head? = some task →
        allBlockersCompleted team.db.listDeps task.id team.db.isDone = true
  | .endStep k .threw _ => ∀ w, team.working[k]? = some w → ¬ Holds team.db w
  | .endStep k _ _ =>
    ∀ w, team.working[k]? = some w →
      ∀ w' ∈ team.working, w'.taskId = w.taskId → Holds team.db w' → w'.claim = w.claim
  | _ => True

end Asked

theorem Holds.of_drops (h : Drops db db') {w : Work ι} (hw : Holds db' w) : Holds db w := by
  obtain ⟨τ, hτ, hc⟩ := hw
  exact ⟨τ, h.tenure _ _ hτ, hc⟩

/-! ## What holds along a run -/

variable {ctx : ι → TeammateContext} {base : ℕ} {team : Team ι}

/-- What is true of a team at all times, as long as nothing went wrong. -/
structure Inv (ctx : ι → TeammateContext) (base : ℕ) (team : Team ι) : Prop where
  numbered : ∀ id c, lastClaim team.db id = some c → c ≤ team.db.events.length
  long : base ≤ team.db.events.length
  recent : ∀ w ∈ team.working, base < w.claim
  /-- A later claim of a task is a claim with a higher number. -/
  since : ∀ w ∈ team.working, ∃ c, lastClaim team.db w.taskId = some c ∧ w.claim ≤ c
  distinct : (team.working.map Work.claim).Nodup
  own : ∀ w ∈ team.working, Holds team.db w → tenure team.db w.taskId =
    some ⟨.inProgress, some (ctx w.mate).memberId, some w.claim⟩
  kept : NothingStranded base team
  once : CompletedOnce team.db

theorem Inv.claim_le (h : Inv ctx base team) {w : Work ι} (hw : w ∈ team.working) :
    w.claim ≤ team.db.events.length := by
  obtain ⟨c, hc, hle⟩ := h.since w hw
  exact hle.trans (h.numbered _ _ hc)

theorem inv_on (hnumbered : Numbered db) (honce : CompletedOnce db) :
    Inv ctx db.events.length (Team.on db : Team ι) where
  numbered := hnumbered
  long := le_rfl
  recent _ h := absurd h List.not_mem_nil
  since _ h := absurd h List.not_mem_nil
  distinct := List.nodup_nil
  own _ h := absurd h List.not_mem_nil
  kept id τ c hτ hc hlt := by
    obtain ⟨-, -, hclaim⟩ := tenure_eq_some.mp hτ
    have hle := hnumbered id c (hclaim.trans hc)
    exact absurd hlt (Nat.not_lt_of_le hle)
  once := honce

/-- **Letting go** keeps the invariant, if every task that is still held is held by a step that is
still at work. -/
theorem Inv.drops (h : Inv ctx base team) {team' : Team ι} (hdrops : Drops team.db team'.db)
    (hworking : team'.working.Sublist team.working) (hkept : NothingStranded base team')
    (honce : CompletedOnce team'.db) : Inv ctx base team' where
  numbered id c hc := by
    rw [hdrops.lastClaim] at hc
    exact (h.numbered id c hc).trans hdrops.length
  long := h.long.trans hdrops.length
  recent w hw := h.recent w (hworking.subset hw)
  since w hw := by
    rw [hdrops.lastClaim]
    exact h.since w (hworking.subset hw)
  distinct := (hworking.map _).nodup h.distinct
  own w hw hholds := by
    have hown := h.own w (hworking.subset hw) (hholds.of_drops hdrops)
    obtain ⟨τ, hτ, -⟩ := hholds
    rw [hτ, ← hown]
    exact (hdrops.tenure _ _ hτ).symm
  kept := hkept
  once := honce

theorem NothingStranded.drops (h : NothingStranded base team) {team' : Team ι}
    (hdrops : Drops team.db team'.db) (hworking : team'.working = team.working) :
    NothingStranded base team' := by
  intro id τ c hτ hc hlt
  rw [hworking]
  exact h id τ c (hdrops.tenure id τ hτ) hc hlt

/-- **To take a task** and work on it keeps the invariant. -/
theorem Inv.takes (h : Inv ctx base team) {team' : Team ι} {id : ℤ} {i : ι}
    (htakes : Takes team.db id .inProgress (ctx i).memberId team'.db)
    (hworking : team'.working = team.working ++ [⟨i, id, team.db.events.length + 1⟩]) :
    Inv ctx base team' := by
  have hmem : ∀ w ∈ team'.working, w ∈ team.working ∨ w = ⟨i, id, team.db.events.length + 1⟩ := by
    intro w hw
    rw [hworking, List.mem_append, List.mem_singleton] at hw
    exact hw
  refine ⟨fun a c hc ↦ ?_, h.long.trans htakes.length.le, fun w hw ↦ ?_, fun w hw ↦ ?_, ?_,
    fun w hw hholds ↦ ?_, fun a τ c hτ hc hlt ↦ ?_, htakes.once h.once⟩
  · rw [htakes.lastClaim, Function.update_apply] at hc
    have hlength := htakes.length
    split_ifs at hc
    · cases hc
      omega
    · exact (h.numbered a c hc).trans htakes.length.le
  · rcases hmem w hw with hw | rfl
    · exact h.recent w hw
    · exact Nat.lt_succ_of_le h.long
  · rw [htakes.lastClaim]
    rcases hmem w hw with hw | rfl
    · by_cases hid : w.taskId = id
      · rw [hid, Function.update_self]
        exact ⟨_, rfl, (h.claim_le hw).trans (Nat.le_succ _)⟩
      · rw [Function.update_of_ne hid]
        exact h.since w hw
    · rw [Function.update_self]
      exact ⟨_, rfl, le_rfl⟩
  · rw [hworking, List.map_append, List.map_singleton]
    refine h.distinct.append (List.nodup_singleton _) ?_
    rw [List.disjoint_singleton, List.mem_map]
    rintro ⟨w, hw, hclaim⟩
    have hlate : w.claim = team.db.events.length + 1 := hclaim
    have hle := h.claim_le hw
    omega
  · obtain ⟨τ, hτ, hc⟩ := hholds
    rw [htakes.tenure] at hτ ⊢
    rcases hmem w hw with hw | rfl
    · by_cases hid : w.taskId = id
      · rw [hid, Function.update_self] at hτ
        cases hτ
        have hle := h.claim_le hw
        have heq := Option.some.inj hc
        omega
      · rw [Function.update_of_ne hid] at hτ ⊢
        exact h.own w hw ⟨τ, hτ, hc⟩
    · exact Function.update_self ..
  · rw [htakes.tenure] at hτ
    rw [hworking]
    by_cases ha : a = id
    · subst ha
      rw [Function.update_self] at hτ
      cases hτ
      cases hc
      exact ⟨_, List.mem_append_right _ (List.mem_singleton_self _), rfl, rfl⟩
    · rw [Function.update_of_ne ha] at hτ
      obtain ⟨w, hw, hwid, hwc⟩ := h.kept a τ c hτ hc hlt
      exact ⟨w, List.mem_append_left _ hw, hwid, hwc⟩

/-! ## One move -/

/-- The step at a place, and the others. -/
theorem mem_eraseIdx_or {α : Type} {l : List α} {k : ℕ} {a b : α} (ha : a ∈ l)
    (hk : l[k]? = some b) : a ∈ l.eraseIdx k ∨ a = b := by
  obtain ⟨j, hj⟩ := List.mem_iff_getElem?.mp ha
  by_cases hjk : j = k
  · rw [hjk, hk] at hj
    exact .inr (Option.some.inj hj).symm
  · exact .inl (List.mem_eraseIdx_iff_getElem?.mpr ⟨j, hjk, hj⟩)

/-- The steps are told apart by their claims. -/
theorem Inv.claim_ne (h : Inv ctx base team) {k : ℕ} {w w' : Work ι}
    (hk : team.working[k]? = some w) (hw' : w' ∈ team.working.eraseIdx k) :
    w'.claim ≠ w.claim := by
  obtain ⟨j, hjk, hj⟩ := List.mem_eraseIdx_iff_getElem?.mp hw'
  intro heq
  refine hjk ((List.getElem?_inj ?_ h.distinct).mp ?_)
  · obtain ⟨hlt, -⟩ := List.getElem?_eq_some_iff.mp hj
    rwa [List.length_map]
  · rw [List.getElem?_map, List.getElem?_map, hj, hk, Option.map_some, Option.map_some, heq]

/-- Can a work that ended like this change a task that it holds? -/
theorem Inv.changes (h : Inv ctx base team) {w : Work ι} {outcome : Outcome}
    (hw : w ∈ team.working) (hholds : Holds team.db w) (houtcome : outcome ≠ .threw) {id : ℤ}
    (hid : w.taskId = id) (now : ℕ → ℤ) (member : TeammateContext) :
    (endStep now member outcome id team.db).1 = true := by
  subst hid
  have hown := h.own w hw hholds
  rw [(ends_endStep now member team.db outcome w.taskId).can_iff, hown]
  cases outcome with
  | ok => exact rfl
  | notOk => exact Option.some_ne_none _
  | threw => exact absurd rfl houtcome

/-- Whoever holds a task that a step works on is a step at work, under a claim that is not older. -/
theorem Inv.holder (h : Inv ctx base team) {w : Work ι} (hw : w ∈ team.working) {τ : Tenure}
    (hτ : tenure team.db w.taskId = some τ) :
    ∃ w' ∈ team.working, w'.taskId = w.taskId ∧ τ.claim = some w'.claim := by
  obtain ⟨c, hc, hle⟩ := h.since w hw
  obtain ⟨-, -, hclaim⟩ := tenure_eq_some.mp hτ
  have hτc : τ.claim = some c := hclaim.symm.trans hc
  obtain ⟨w', hw', hid, hwc⟩ := h.kept w.taskId τ c hτ hτc ((h.recent w hw).trans_le hle)
  exact ⟨w', hw', hid, hwc ▸ hτc⟩

section EndStep

variable {k : ℕ} {w : Work ι} {outcome : Outcome} {now : ℕ → ℤ}

/-- **A step that ends with care** ends its own tenure, or none. -/
theorem Inv.held_endStep (h : Inv ctx base team) (hk : team.working[k]? = some w)
    (hcareful : Careful ctx (.endStep k outcome now) team)
    (hchanged : (endStep now (ctx w.mate) outcome w.taskId team.db).1 = true) :
    tenure team.db w.taskId =
      some ⟨.inProgress, some (ctx w.mate).memberId, some w.claim⟩ := by
  have hw : w ∈ team.working := List.mem_of_getElem? hk
  have hcan := (ends_endStep now (ctx w.mate) team.db outcome w.taskId).can_iff.mp hchanged
  have hsome : tenure team.db w.taskId ≠ none := by
    cases outcome with
    | ok =>
      intro hnone
      rw [hnone] at hcan
      cases hcan
    | notOk => exact hcan
    | threw => exact hcan.elim
  obtain ⟨τ, hτ⟩ := Option.ne_none_iff_exists'.mp hsome
  obtain ⟨w', hw', hid, hclaim⟩ := h.holder hw hτ
  have hholds : Holds team.db w' := ⟨τ, hid ▸ hτ, hclaim⟩
  have heq : w'.claim = w.claim := by
    cases outcome with
    | ok => exact hcareful w hk w' hw' hid hholds
    | notOk => exact hcareful w hk w' hw' hid hholds
    | threw => exact hcan.elim
  exact h.own w hw ⟨τ, hτ, heq ▸ hclaim⟩

variable [DecidableEq ι]

theorem move_endStep (hk : team.working[k]? = some w) :
    team.move ctx (.endStep k outcome now) =
      { team with
        db := (endStep now (ctx w.mate) outcome w.taskId team.db).2
        working := team.working.eraseIdx k } := by
  rw [Team.move, hk]

theorem Inv.kept_endStep (h : Inv ctx base team) (hk : team.working[k]? = some w)
    (hcareful : Careful ctx (.endStep k outcome now) team) :
    NothingStranded base (team.move ctx (.endStep k outcome now)) := by
  have hw : w ∈ team.working := List.mem_of_getElem? hk
  have hends := ends_endStep now (ctx w.mate) team.db outcome w.taskId
  rw [move_endStep hk]
  intro id τ c hτ hc hlt
  obtain ⟨w', hw', hid, hwc⟩ := h.kept id τ c (hends.drops.tenure id τ hτ) hc hlt
  rcases mem_eraseIdx_or hw' hk with hmem | rfl
  · exact ⟨w', hmem, hid, hwc⟩
  · -- The step that ends cannot be the one that holds the task afterwards.
    exfalso
    subst hid
    have hholds : Holds team.db w' := ⟨τ, hends.drops.tenure _ _ hτ, hwc ▸ hc⟩
    by_cases houtcome : outcome = .threw
    · subst houtcome
      exact hcareful w' hk hholds
    · have hchanged := h.changes hw hholds houtcome rfl now (ctx w'.mate)
      have hgone := hends.gone hchanged
      rw [hgone] at hτ
      cases hτ

end EndStep

variable [DecidableEq ι]

/-- **A careful move** keeps the invariant. -/
theorem Inv.move (h : Inv ctx base team) {move : Move ι} (hcareful : Careful ctx move team) :
    Inv ctx base (team.move ctx move) := by
  cases move with
  | deliver i id sender message now =>
    exact h.drops (.refl _) (List.Sublist.refl _) (h.kept.drops (.refl _) rfl) h.once
  | reclaim lostMemberId actor now =>
    obtain ⟨hdrops, honce⟩ := drops_releaseAll now actor
      ((TaskGraph.list team.db false).filter (isHeldBy lostMemberId)) team.db
    exact h.drops hdrops (List.Sublist.refl _) (h.kept.drops hdrops rfl) (honce h.once)
  | endStep k outcome now =>
    cases hk : team.working[k]? with
    | none =>
      have hsame : team.move ctx (.endStep k outcome now) = team := by rw [Team.move, hk]
      rwa [hsame]
    | some w =>
      have hends := ends_endStep now (ctx w.mate) team.db outcome w.taskId
      have hkept := h.kept_endStep hk hcareful
      rw [move_endStep hk] at hkept ⊢
      exact h.drops hends.drops (List.eraseIdx_sublist ..) hkept (hends.once h.once)
  | beginStep i aborted now =>
    have hcases := beginStep_cases now (ctx i) team.db aborted (team.mates i) i
    rcases hcases with ⟨hdb, hwaiting, -⟩ | ⟨hgo, howner, task, hhead, hcases⟩
    · have hdrops : Drops team.db (team.move ctx (.beginStep i aborted now)).db := by
        refine Eq.subst (motive := Drops team.db) hdb.symm (.refl _)
      have hworking : (team.move ctx (.beginStep i aborted now)).working = team.working :=
        (congrArg (team.working ++ ·) hwaiting).trans (List.append_nil _)
      refine h.drops hdrops (hworking ▸ List.Sublist.refl _) (h.kept.drops hdrops hworking) ?_
      exact Eq.subst (motive := CompletedOnce) hdb.symm h.once
    · rcases hcases with ⟨-, hwaiting, htakes⟩ | ⟨hblocked, -, -⟩
      · exact h.takes htakes (congrArg (team.working ++ ·) hwaiting)
      · rw [hcareful hgo howner task hhead] at hblocked
        cases hblocked

theorem completions_le_one (h : CompletedOnce db) (id : ℤ) : completions db id ≤ 1 := by
  rcases h id with hzero | ⟨hone, -⟩ <;> omega

/-- **Where nothing went wrong yet**, a move is as it should be exactly if it is careful. -/
theorem Inv.rightful_iff (h : Inv ctx base team) (move : Move ι) :
    Careful ctx move team ↔ Rightful ctx base move team := by
  constructor
  · intro hcareful
    refine ⟨?_, completions_le_one (h.move hcareful).once, (h.move hcareful).kept⟩
    rintro k outcome now w rfl hk hchanged
    exact ⟨_, h.held_endStep hk hcareful hchanged⟩
  · intro hr
    cases move with
    | deliver => exact trivial
    | reclaim => exact trivial
    | beginStep i aborted now =>
      intro hgo howner task hhead
      by_contra hblocked
      -- The step fails with the task in hand, so nobody works on what it claimed.
      rcases beginStep_cases now (ctx i) team.db aborted (team.mates i) i with ⟨-, -, hnone⟩ | ⟨-, -, task', hhead', hcases⟩
      · refine hnone ⟨hgo, howner, ?_⟩
        rintro hnil
        rw [hnil] at hhead
        cases hhead
      · cases hhead.symm.trans hhead'
        rcases hcases with ⟨hready, -⟩ | ⟨-, hwaiting, htakes⟩
        · exact hblocked hready
        · obtain ⟨w, hw, -, hclaim⟩ := hr.kept task.id _ _
            ((congrFun htakes.tenure task.id).trans (Function.update_self ..)) rfl
            (Nat.lt_succ_of_le h.long)
          have hworking : (team.move ctx (.beginStep i aborted now)).working = team.working :=
            (congrArg (team.working ++ ·) hwaiting).trans (List.append_nil _)
          rw [hworking] at hw
          have hle := h.claim_le hw
          omega
    | endStep k outcome now =>
      have hother : outcome ≠ .threw → ∀ w, team.working[k]? = some w → ∀ w' ∈ team.working,
          w'.taskId = w.taskId → Holds team.db w' → w'.claim = w.claim := by
        intro houtcome w hk w' hw' hid hholds
        -- The task of `w` is in progress in the hands of `w'`, so the end of `w` changes it.
        obtain ⟨s, hs⟩ := hr.held k outcome now w rfl hk (h.changes hw' hholds houtcome hid now (ctx w.mate))
        have hown := h.own w' hw' hholds
        rw [hid, hs] at hown
        have hclaims := congrArg Tenure.claim (Option.some.inj hown)
        exact (Option.some.inj hclaims).symm
      cases outcome with
      | ok => exact hother (by rintro ⟨⟩)
      | notOk => exact hother (by rintro ⟨⟩)
      | threw =>
        intro w hk hholds
        have hw : w ∈ team.working := List.mem_of_getElem? hk
        have hkept := hr.kept
        rw [move_endStep hk] at hkept
        obtain ⟨w', hw', -, hclaim⟩ := hkept w.taskId _ _ (h.own w hw hholds) rfl (h.recent w hw)
        exact h.claim_ne hk hw' hclaim

/-- **The runs in which every step ends its own tenure and no other** are those whose moves are
careful: a step claims a task only if its blockers are done with, a work returns only while no other
step holds its task, and a work throws only when its step does not hold the task any more. -/
theorem rightful_iff_careful (ctx : ι → TeammateContext) (calls : List TaskCall)
    (moves : List (Move ι)) :
    Run.Along (fun move team ↦ Team.move ctx team move)
        (Rightful ctx (runAll calls TaskDb.empty).events.length) moves
        (Team.on (runAll calls TaskDb.empty)) ↔
      Run.Along (fun move team ↦ Team.move ctx team move) (Careful ctx) moves
        (Team.on (runAll calls TaskDb.empty)) := by
  have hinv : Inv ctx (runAll calls TaskDb.empty).events.length
      (Team.on (runAll calls TaskDb.empty)) :=
    inv_on (numbered_runAll calls TaskDb.faithful_empty numbered_empty)
      (completedOnce_runAll calls TaskDb.faithful_empty completedOnce_empty)
  exact (Run.along_iff_along (fun move team h hcareful ↦ h.move hcareful)
    (fun move team h ↦ h.rightful_iff move) moves hinv).symm

/-! ## A late completion -/

private def board : Actor := ⟨.system, "act_teamlead", some "lead"⟩

/-- Two members. -/
def pair (second : Bool) : TeammateContext :=
  if second then ⟨"mem_bbbb", ⟨.teammate, "act_teammate", some "mem_bbbb"⟩⟩
  else ⟨"mem_aaaa", ⟨.teammate, "act_teammate", some "mem_aaaa"⟩⟩

/-- One task. -/
def oneTask : List TaskCall := [⟨.create ⟨"a", none, "a", none, none⟩, board, fun _ ↦ 0⟩]

/-- The first member is taken for lost and comes back after the second has begun. -/
def lateReturn : List (Move Bool) :=
  [.beginStep false false fun _ ↦ 1, .reclaim "mem_aaaa" board fun _ ↦ 2,
    .beginStep true false fun _ ↦ 3, .endStep 0 .ok fun _ ↦ 4]

/-- It completes the task that the second one holds. -/
theorem not_rightful_lateReturn :
    ¬ ∀ calls moves, Run.Along (fun move team ↦ Team.move pair team move)
      (Rightful pair (runAll calls TaskDb.empty).events.length) moves
      (Team.on (runAll calls TaskDb.empty)) := by
  intro h
  obtain ⟨-, -, -, hlast, -⟩ := h oneTask lateReturn
  have hchanged : (endStep (fun _ ↦ 4) (pair false) .ok 1
      ((lateReturn.take 3).foldl (Team.move pair) (Team.on (runAll oneTask TaskDb.empty))).db).1 =
      true := by decide
  have htenure : tenure
      ((lateReturn.take 3).foldl (Team.move pair) (Team.on (runAll oneTask TaskDb.empty))).db 1 =
      some ⟨.inProgress, some "mem_bbbb", some 5⟩ := by decide
  have hworking : ((lateReturn.take 3).foldl (Team.move pair)
      (Team.on (runAll oneTask TaskDb.empty))).working[0]? = some ⟨false, 1, 2⟩ := by
    decide
  obtain ⟨s, hs⟩ := hlast.held 0 .ok (fun _ ↦ 4) ⟨false, 1, 2⟩ rfl hworking hchanged
  have hclaim : some 5 = some 2 := congrArg Tenure.claim (Option.some.inj (htenure.symm.trans hs))
  exact absurd (Option.some.inj hclaim) (by decide)

end QwenHarness.Teams
