import QwenHarness.Files.Slot
import QwenHarness.Run.Along

/-!
# The single-writer lease

A daemon holds a lease as long as a lock file names its process. The file is created exclusively,
and the process is written into it; a file that names a process that is gone is removed, and the
next attempt creates another.

To read a lock file, to ask whether its process is alive and to remove the file are three steps. In
between another process may have done all three and taken the lease, and then it is its file that
is removed. The lease is exclusive as long as no step removes a file but the one its process has
read.
-/

namespace QwenHarness.Daemon

/-! ## Processes -/

/-- A process. The number zero is no process; a signal to it goes to the sender's own group. -/
abbrev Pid := ℕ

inductive LeaseErrorCode where
  | held
  | notOwner
  | ioError
deriving DecidableEq, Repr

structure LeaseError where
  code : LeaseErrorCode
  message : String
  holderPid : Option Pid
deriving DecidableEq, Repr

/-- Where a process stands in `acquireLease` or `release`. What it does next is the step that is
named. `seen` is the file it has read; the program does not know it. -/
inductive Control where
  | idle (thrown : Option LeaseError)
  | opening (attempt : ℕ)
  | writing (fd : ℕ)
  | reading (attempt : ℕ)
  | probing (attempt : ℕ) (seen : Option ℕ) (holder : Pid)
  | unlinking (attempt : ℕ) (seen : Option ℕ)
  | checking
  | removing (seen : Option ℕ)
deriving DecidableEq, Repr

def Control.isIdle : Control → Bool
  | .idle _ => true
  | _ => false

/-- The lock file, and every process. A handle is known by the file its lease was taken with. -/
structure LeaseState where
  file : Slot Pid Pid
  alive : Pid → Bool
  control : Pid → Control
  /-- The handles that are not released. -/
  handles : Pid → List ℕ
  no_zero : alive 0 = false

namespace LeaseState

variable (s : LeaseState)

def goto (p : Pid) (c : Control) : LeaseState :=
  { s with control := Function.update s.control p c }

def setFile (file : Slot Pid Pid) : LeaseState := { s with file := file }

def setHandles (p : Pid) (handles : List ℕ) : LeaseState :=
  { s with handles := Function.update s.handles p handles }

/-- `kill(pid, 0)`. -/
def pidAlive (p : Pid) : Bool := decide (p = 0) || s.alive p

/-- The number an empty file is read as is zero. -/
def readLeasePid : Option Pid := s.file.read.map fun found ↦ found.2.getD 0

/-- Which file is read. -/
def seen : Option ℕ := s.file.here

end LeaseState

/-! ## Steps -/

def heldError (holder : Pid) : LeaseError :=
  ⟨.held, "thread is locked by a live daemon (pid " ++ toString holder ++ ")", some holder⟩

def gaveUpError (path : String) : LeaseError :=
  ⟨.ioError, "could not acquire lease at " ++ path ++ " after reclaiming a stale lock", none⟩

variable (path : String)

/-- The next step of a process in `acquireLease` or `release`. -/
def advance (p : Pid) (s : LeaseState) : LeaseState :=
  match s.control p with
  | .idle _ => s
  | .opening attempt =>
    match s.file.here with
    | none => (s.setFile (s.file.create (some p))).goto p (.writing s.file.next)
    | some _ => s.goto p (.reading attempt)
  | .writing fd =>
    ((s.setFile (s.file.set fd (some p))).setHandles p (fd :: s.handles p)).goto p (.idle none)
  | .reading attempt =>
    match s.readLeasePid with
    | none => s.goto p (.unlinking attempt s.seen)
    | some holder =>
      if holder = p then s.goto p (.unlinking attempt s.seen)
      else s.goto p (.probing attempt s.seen holder)
  | .probing attempt seen holder =>
    if s.pidAlive holder then s.goto p (.idle (some (heldError holder)))
    else s.goto p (.unlinking attempt seen)
  | .unlinking attempt _ =>
    if attempt + 1 < 2 then (s.setFile s.file.unlink).goto p (.opening (attempt + 1))
    else (s.setFile s.file.unlink).goto p (.idle (some (gaveUpError path)))
  | .checking =>
    if s.readLeasePid = some p then s.goto p (.removing s.seen) else s.goto p (.idle none)
  | .removing _ => (s.setFile s.file.unlink).goto p (.idle none)

inductive LeaseMove where
  | acquireLease (p : Pid)
  | release (p : Pid) (fd : ℕ)
  | advance (p : Pid)
  | crash (p : Pid)
deriving DecidableEq, Repr

/-- One move. A process runs one call at a time, and none after it has crashed. -/
def move : LeaseMove → LeaseState → LeaseState
  | .acquireLease p, s => if s.alive p && (s.control p).isIdle then s.goto p (.opening 0) else s
  | .release p fd, s =>
    if s.alive p && (s.control p).isIdle && decide (fd ∈ s.handles p) then
      (s.setHandles p ((s.handles p).erase fd)).goto p .checking
    else s
  | .advance p, s => if s.alive p then advance path p s else s
  | .crash p, s =>
    { s with
      alive := Function.update s.alive p false
      no_zero := by
        by_cases hp : p = 0
        · rw [← hp, Function.update_self]
        · rw [Function.update_of_ne (Ne.symm hp), s.no_zero] }

/-! ## Exclusion -/

/-- A live process has a handle it has not released. -/
def Holds (s : LeaseState) (p : Pid) : Prop := s.alive p = true ∧ s.handles p ≠ []

def Exclusive (s : LeaseState) : Prop := ∀ p q, Holds s p → Holds s q → p = q

/-- There is no lock file, or one of a process that is gone, and nothing has begun. -/
structure Started (s : LeaseState) : Prop where
  file : ∀ g, s.file.here = some g → ∃ d, s.file.content g = some d ∧ d ≠ 0 ∧ s.alive d = false
  idle : ∀ p, (s.control p).isIdle = true
  handles : ∀ p, s.handles p = []

/-- A live process has the lease by this file, or is about to. -/
def Rests (s : LeaseState) (p : Pid) (g : ℕ) : Prop :=
  s.alive p = true ∧ (g ∈ s.handles p ∨ s.control p = .writing g)

/-- The file that is about to be removed is the one the process has read, or one nobody rests on. -/
def RemovesWhatItRead (s : LeaseState) (seen : Option ℕ) : Prop :=
  ∀ g, s.file.here = some g → seen = some g ∨ ∀ q, ¬Rests s q g

/-- **The condition on a move**: no file is removed but the one that was read, and a process does
not acquire what it holds. -/
def Careful : LeaseMove → LeaseState → Prop
  | .acquireLease p, s => s.handles p = []
  | .advance p, s =>
    match s.control p with
    | .unlinking _ seen | .removing seen => RemovesWhatItRead s seen
    | _ => True
  | _, _ => True

/-! ### What is known -/

/-- What a process still knows of the file it has read. -/
def Known (s : LeaseState) (p : Pid) : Control → Prop
  | .probing _ (some g) holder => holder ≠ 0 → s.file.content g = some holder
  | .unlinking _ (some g) => ∃ h, s.file.content g = some h ∧ (h = p ∨ s.alive h = false)
  | .removing (some g) => s.file.content g = some p
  | _ => True

/-- The file stands under the name, its process has created it, and nobody else is written in it. -/
def Stands (s : LeaseState) (p : Pid) (g : ℕ) : Prop :=
  s.file.here = some g ∧ s.file.creator g = some p ∧ ∀ h, s.file.content g = some h → h = p

/-- **The invariant.** What a live process rests on stands; it holds one lease at most, and none
while it is in a call. -/
structure Inv (s : LeaseState) : Prop where
  rests : ∀ p g, Rests s p g → Stands s p g
  known : ∀ p, Known s p (s.control p)
  busy : ∀ p, s.alive p = true → (s.control p).isIdle = false → s.handles p = []
  single : ∀ p, s.handles p = [] ∨ ∃ g, s.handles p = [g]

/-- **An invariant state is exclusive**: the file that stands has one creator. -/
theorem Inv.exclusive {s : LeaseState} (h : Inv s) : Exclusive s := by
  intro p q hp hq
  obtain ⟨g, hg⟩ := List.exists_mem_of_ne_nil _ hp.2
  obtain ⟨g', hg'⟩ := List.exists_mem_of_ne_nil _ hq.2
  have hstands := h.rests p g ⟨hp.1, .inl hg⟩
  have hstands' := h.rests q g' ⟨hq.1, .inl hg'⟩
  exact Slot.eq_of_creator hstands.1 hstands'.1 hstands.2.1 hstands'.2.1

theorem Known.mono {s s' : LeaseState} {p : Pid} {c : Control} (h : Known s p c)
    (hcontent : ∀ g x, s.file.content g = some x → s'.file.content g = some x)
    (halive : ∀ q, s.alive q = false → s'.alive q = false) : Known s' p c := by
  rcases c with _ | _ | _ | _ | ⟨_, _ | g, holder⟩ | ⟨_, _ | g⟩ | _ | (_ | g)
  all_goals first | exact trivial | skip
  · exact fun hne ↦ hcontent g holder (h hne)
  · obtain ⟨x, hx, hwho⟩ := h
    exact ⟨x, hcontent g x hx, hwho.imp_right (halive x)⟩
  · exact hcontent g p h

theorem Started.inv {s : LeaseState} (h : Started s) : Inv s where
  rests p g hrests := by
    rcases hrests.2 with hg | hg
    · rw [h.handles p] at hg
      cases hg
    · have hidle := h.idle p
      rw [hg] at hidle
      cases hidle
  known p := by
    have hidle := h.idle p
    rcases hc : s.control p with thrown | _ | _ | _ | _ | _ | _ | _
    · trivial
    all_goals rw [hc] at hidle; cases hidle
  busy p _ _ := h.handles p
  single p := .inl (h.handles p)

/-! ### One step -/

section Step

variable {s : LeaseState} (h : Inv s) {p : Pid} (hp : s.alive p = true)

/-- What a step of one process must leave as it was, and what it has to show. -/
structure StepOf (s s' : LeaseState) (p : Pid) : Prop where
  alive : s'.alive = s.alive
  control : ∀ q, q ≠ p → s'.control q = s.control q
  handles : ∀ q, q ≠ p → s'.handles q = s.handles q
  content : ∀ g x, s.file.content g = some x → s'.file.content g = some x

include h

theorem Inv.of_stepOf {s' : LeaseState} (hstep : StepOf s s' p)
    (hrests : ∀ q g, Rests s' q g → Stands s' q g) (hknown : Known s' p (s'.control p))
    (hbusy : (s'.control p).isIdle = false → s'.handles p = [])
    (hsingle : s'.handles p = [] ∨ ∃ g, s'.handles p = [g]) : Inv s' where
  rests := hrests
  known q := by
    by_cases hq : q = p
    · rw [hq]
      exact hknown
    · rw [hstep.control q hq]
      exact (h.known q).mono hstep.content fun r hr ↦ by rw [hstep.alive, hr]
  busy q hq hidle := by
    by_cases hqp : q = p
    · rw [hqp] at hidle ⊢
      exact hbusy hidle
    · rw [hstep.handles q hqp]
      rw [hstep.control q hqp] at hidle
      exact h.busy q (by rw [← hq, hstep.alive]) hidle
  single q := by
    by_cases hqp : q = p
    · rw [hqp]
      exact hsingle
    · rw [hstep.handles q hqp]
      exact h.single q

omit h in
theorem stepOf_goto (s : LeaseState) (p : Pid) (c : Control) : StepOf s (s.goto p c) p where
  alive := rfl
  control _ hq := Function.update_of_ne hq _ _
  handles _ _ := rfl
  content _ _ hx := hx

omit h in
theorem control_goto (s : LeaseState) (p : Pid) (c : Control) : (s.goto p c).control p = c :=
  Function.update_self _ _ _

omit h in
theorem rests_of_goto {c : Control} (hc : ∀ g, c ≠ .writing g) {q : Pid} {g : ℕ}
    (hrests : Rests (s.goto p c) q g) : Rests s q g := by
  refine ⟨hrests.1, hrests.2.imp_right fun hwriting ↦ ?_⟩
  by_cases hq : q = p
  · rw [hq, control_goto] at hwriting
    exact absurd hwriting (hc g)
  · rwa [(stepOf_goto s p c).control q hq] at hwriting

/-- Going on without touching the file or a handle. -/
theorem Inv.goto {c : Control} (hc : ∀ g, c ≠ .writing g) (hknown : Known s p c)
    (hbusy : c.isIdle = false → s.handles p = []) : Inv (s.goto p c) := by
  refine h.of_stepOf (stepOf_goto s p c) (fun q g hrests ↦ ?_) ?_ ?_ (h.single p)
  · exact h.rests q g (rests_of_goto hc hrests)
  · rw [control_goto]
    exact hknown.mono (fun _ _ hx ↦ hx) fun _ hq ↦ hq
  · rw [control_goto]
    exact hbusy

/-- Removing a file nobody rests on. -/
theorem Inv.unlink {c : Control} (hnone : ∀ g, s.file.here = some g → ∀ q, ¬Rests s q g)
    (hc : ∀ g, c ≠ .writing g) (hknown : ∀ s, Known s p c)
    (hbusy : c.isIdle = false → s.handles p = []) :
    Inv ((s.setFile s.file.unlink).goto p c) := by
  have hgoto := h.goto hc (hknown s) hbusy
  have hstep : StepOf (s.goto p c) ((s.setFile s.file.unlink).goto p c) p :=
    ⟨rfl, fun _ _ ↦ rfl, fun _ _ ↦ rfl, fun _ _ hx ↦ hx⟩
  refine hgoto.of_stepOf hstep (fun q g hrests ↦ ?_) ?_ ?_ (h.single p)
  · -- whoever rests on a file did so before, and then it is the one that is removed
    have hbefore : Rests (s.goto p c) q g := hrests
    exact absurd (rests_of_goto hc hbefore) (hnone g (h.rests q g (rests_of_goto hc hbefore)).1 q)
  · rw [control_goto]
    exact hknown _
  · rw [control_goto]
    exact hbusy

include hp in
/-- The file a process has reclaimed the right to remove, or has read as its own, has nobody resting
on it. -/
theorem Inv.not_rests_of_known {g : ℕ} {x : Pid} (hx : s.file.content g = some x)
    (hwho : x = p ∨ s.alive x = false) (hidle : (s.control p).isIdle = false)
    (hwriting : s.control p ≠ .writing g) (q : Pid) : ¬Rests s q g := by
  intro hrests
  obtain rfl : x = q := (h.rests q g hrests).2.2 x hx
  rcases hwho with rfl | hdead
  · rcases hrests.2 with hg | hg
    · rw [h.busy x hp hidle] at hg
      cases hg
    · exact hwriting hg
  · rw [hrests.1] at hdead
    cases hdead

include hp in
theorem Inv.create (hhere : s.file.here = none) (hidle : (s.control p).isIdle = false) :
    Inv ((s.setFile (s.file.create (some p))).goto p (.writing s.file.next)) := by
  -- nobody rests on anything before, so the new file is the only one
  have hnobody : ∀ q g, ¬Rests s q g := by
    intro q g hrests
    have hstands := (h.rests q g hrests).1
    rw [hhere] at hstands
    cases hstands
  refine h.of_stepOf (p := p) ⟨rfl, (stepOf_goto s p _).control, fun _ _ ↦ rfl, fun _ _ hx ↦ hx⟩
    (fun q g hrests ↦ ?_) ?_ (fun _ ↦ h.busy p hp hidle) (h.single p)
  · by_cases hq : q = p
    · subst hq
      rcases hrests.2 with hg | hg
      · exact absurd ⟨hp, .inl hg⟩ (hnobody q g)
      · rw [control_goto] at hg
        obtain rfl : s.file.next = g := Control.writing.inj hg
        refine ⟨rfl, Slot.creator_create_self _, fun x hx ↦ ?_⟩
        have hempty : s.file.content s.file.next = none := s.file.fresh _ le_rfl
        exact absurd (hempty.symm.trans hx) (by simp)
    · refine absurd ⟨hrests.1, hrests.2.imp_right fun hwriting ↦ ?_⟩ (hnobody q g)
      exact ((stepOf_goto s p _).control q hq).symm.trans hwriting
  · rw [control_goto]
    trivial

include hp in
theorem Inv.write {fd : ℕ} (hc : s.control p = .writing fd) :
    Inv (((s.setFile (s.file.set fd (some p))).setHandles p (fd :: s.handles p)).goto p
      (.idle none)) := by
  have hfd : Stands s p fd := h.rests p fd ⟨hp, .inr hc⟩
  have hlt : fd < s.file.next := s.file.here_lt fd hfd.1
  have hnone : s.handles p = [] := h.busy p hp (by rw [hc]; rfl)
  have hself : (Function.update s.handles p (fd :: s.handles p)) p = [fd] := by
    rw [Function.update_self, hnone]
  have hcontent : ∀ g x, s.file.content g = some x →
      (s.file.set fd (some p)).content g = some x := by
    intro g x hx
    by_cases hg : g = fd
    · subst hg
      rw [Slot.content_set_self hlt, hfd.2.2 x hx]
    · rw [Slot.content_set_of_ne hg, hx]
  refine h.of_stepOf (p := p)
    ⟨rfl, (stepOf_goto s p _).control, fun q hq ↦ Function.update_of_ne hq _ _, hcontent⟩
    (fun q g hrests ↦ ?_) ?_ ?_ (.inr ⟨fd, hself⟩)
  · by_cases hq : q = p
    · subst hq
      obtain rfl : g = fd := by
        rcases hrests.2 with hg | hg
        · exact List.mem_singleton.mp (hself ▸ hg)
        · rw [control_goto] at hg
          cases hg
      refine ⟨hfd.1, hfd.2.1, fun x hx ↦ ?_⟩
      exact (Option.some.inj ((Slot.content_set_self hlt _).symm.trans hx)).symm
    · -- another process would rest on the same file, and it has another creator
      have hbefore : Stands s q g := h.rests q g ⟨hrests.1, hrests.2.imp
        (fun hg ↦ by rwa [← Function.update_of_ne hq (fd :: s.handles p) s.handles])
        fun hg ↦ ((stepOf_goto s p _).control q hq).symm.trans hg⟩
      exact absurd (Slot.eq_of_creator hbefore.1 hfd.1 hbefore.2.1 hfd.2.1) hq
  · rw [control_goto]
    trivial
  · rw [control_goto]
    intro hidle
    cases hidle

omit h in
theorem seen_of_readLeasePid_eq_none (hread : s.readLeasePid = none) : s.seen = none := by
  rw [LeaseState.readLeasePid, Slot.read, Option.map_map, Option.map_eq_none_iff] at hread
  exact hread

omit h in
theorem content_of_readLeasePid {holder : Pid} (hread : s.readLeasePid = some holder) (g : ℕ)
    (hg : s.seen = some g) (hne : holder ≠ 0) : s.file.content g = some holder := by
  have hhere : s.file.here = some g := hg
  rw [LeaseState.readLeasePid, Slot.read, hhere, Option.map_some, Option.map_some,
    Option.some.injEq] at hread
  rcases hx : s.file.content g with - | x
  · rw [hx] at hread
    exact absurd hread.symm hne
  · rw [hx] at hread
    rw [show x = holder from hread]

include hp in
theorem Inv.remove {c : Control} {seen : Option ℕ} (hremoves : RemovesWhatItRead s seen)
    (hseen : ∀ g, seen = some g → ∃ x, s.file.content g = some x ∧ (x = p ∨ s.alive x = false))
    (hidle : (s.control p).isIdle = false) (hwriting : ∀ g, s.control p ≠ .writing g)
    (hc : ∀ g, c ≠ .writing g) (hknown : ∀ s, Known s p c) :
    Inv ((s.setFile s.file.unlink).goto p c) := by
  refine h.unlink (fun g hg ↦ ?_) hc hknown fun _ ↦ h.busy p hp hidle
  rcases hremoves g hg with hread | hnone
  · obtain ⟨x, hx, hwho⟩ := hseen g hread
    exact h.not_rests_of_known hp hx hwho hidle (hwriting g)
  · exact hnone

include hp in
/-- **A careful step** keeps the invariant. -/
theorem Inv.advance (hcareful : Careful (.advance p) s) : Inv (advance path p s) := by
  rw [Daemon.advance]
  rw [Careful] at hcareful
  have hknown := h.known p
  have hzero : p ≠ 0 := by
    rintro rfl
    rw [s.no_zero] at hp
    cases hp
  rcases hc : s.control p with thrown | attempt | fd | attempt | ⟨attempt, seen, holder⟩ |
    ⟨attempt, seen⟩ | _ | seen
  all_goals simp only [hc] at hcareful hknown ⊢
  all_goals have hbusy := h.busy p hp
  all_goals rw [hc] at hbusy
  · exact h
  · rcases hhere : s.file.here with - | g
    · exact h.create hp hhere (by rw [hc]; rfl)
    · exact h.goto (by simp) trivial fun _ ↦ hbusy rfl
  · exact h.write hp hc
  · rcases hread : s.readLeasePid with - | holder
    · refine h.goto (by simp) ?_ fun _ ↦ hbusy rfl
      rw [seen_of_readLeasePid_eq_none hread]
      trivial
    · by_cases hholder : holder = p
      · simp only [if_pos hholder]
        refine h.goto (by simp) ?_ fun _ ↦ hbusy rfl
        rcases hseen : s.seen with - | g
        · trivial
        · exact ⟨p, content_of_readLeasePid (hholder ▸ hread) g hseen hzero, .inl rfl⟩
      · simp only [if_neg hholder]
        refine h.goto (by simp) ?_ fun _ ↦ hbusy rfl
        rcases hseen : s.seen with - | g
        · trivial
        · exact content_of_readLeasePid hread g hseen
  · split_ifs with halive
    · exact h.goto (by simp) trivial fun hidle ↦ by cases hidle
    · refine h.goto (by simp) ?_ fun _ ↦ hbusy rfl
      rw [LeaseState.pidAlive, Bool.or_eq_true, decide_eq_true_eq, not_or] at halive
      rcases seen with - | g
      · trivial
      · exact ⟨holder, hknown halive.1, .inr (by simpa using halive.2)⟩
  · have hseen : ∀ g, seen = some g →
        ∃ x, s.file.content g = some x ∧ (x = p ∨ s.alive x = false) := by
      rintro g rfl
      exact hknown
    split_ifs with hattempt
    · exact h.remove hp hcareful hseen (by rw [hc]; rfl) (by simp [hc]) (by simp) fun _ ↦ trivial
    · exact h.remove hp hcareful hseen (by rw [hc]; rfl) (by simp [hc]) (by simp) fun _ ↦ trivial
  · split_ifs with hread
    · refine h.goto (by simp) ?_ fun _ ↦ hbusy rfl
      rcases hseen : s.seen with - | g
      · trivial
      · exact content_of_readLeasePid hread g hseen hzero
    · exact h.goto (by simp) trivial fun hidle ↦ by cases hidle
  · have hseen : ∀ g, seen = some g →
        ∃ x, s.file.content g = some x ∧ (x = p ∨ s.alive x = false) := by
      rintro g rfl
      exact ⟨p, hknown, .inl rfl⟩
    exact h.remove hp hcareful hseen (by rw [hc]; rfl) (by simp [hc]) (by simp) fun _ ↦ trivial

end Step

/-- A handle that is released is the only one. -/
theorem Inv.release {s : LeaseState} (h : Inv s) {p : Pid} {fd : ℕ} (hfd : fd ∈ s.handles p) :
    Inv ((s.setHandles p ((s.handles p).erase fd)).goto p .checking) := by
  have hafter : (s.handles p).erase fd = [] := by
    rcases h.single p with hnil | ⟨g, hg⟩
    · rw [hnil]
      rfl
    · rw [hg] at hfd ⊢
      rw [List.mem_singleton.mp hfd]
      simp
  have hself : Function.update s.handles p ((s.handles p).erase fd) p = [] := by
    rw [Function.update_self, hafter]
  have hstep : StepOf s ((s.setHandles p ((s.handles p).erase fd)).goto p .checking) p :=
    ⟨rfl, (stepOf_goto s p _).control, fun q hq ↦ Function.update_of_ne hq _ _, fun _ _ hx ↦ hx⟩
  refine h.of_stepOf hstep (fun q g hrests ↦ ?_) ?_ (fun _ ↦ hself) (.inl hself)
  · by_cases hq : q = p
    · subst hq
      rcases hrests.2 with hg | hg
      · exact absurd (hself ▸ hg : g ∈ []) List.not_mem_nil
      · rw [control_goto] at hg
        cases hg
    · exact h.rests q g ⟨hrests.1, hrests.2.imp (fun hg ↦ by rwa [← hstep.handles q hq])
        fun hg ↦ (hstep.control q hq).symm.trans hg⟩
  · rw [control_goto]
    trivial

/-- **A careful move** keeps the invariant. -/
theorem Inv.move {s : LeaseState} (h : Inv s) {m : LeaseMove} (hcareful : Careful m s) :
    Inv (move path m s) := by
  cases m with
  | acquireLease p =>
    rw [Daemon.move]
    split_ifs with hstart
    · exact h.goto (by simp) trivial fun _ ↦ hcareful
    · exact h
  | release p fd =>
    rw [Daemon.move]
    split_ifs with hstart
    · rw [Bool.and_eq_true, decide_eq_true_eq] at hstart
      exact h.release hstart.2
    · exact h
  | advance p =>
    rw [Daemon.move]
    split_ifs with hp
    · exact h.advance path hp hcareful
    · exact h
  | crash p =>
    -- fewer processes are alive, and nothing else is different
    have hfewer : ∀ q, Function.update s.alive p false q = true → s.alive q = true := by
      intro q hq
      by_cases hqp : q = p
      · rw [hqp, Function.update_self] at hq
        cases hq
      · rwa [Function.update_of_ne hqp] at hq
    refine ⟨fun q g hrests ↦ h.rests q g ⟨hfewer q hrests.1, hrests.2⟩,
      fun q ↦ (h.known q).mono (fun _ _ hx ↦ hx) fun r hr ↦ ?_,
      fun q hq ↦ h.busy q (hfewer q hq), h.single⟩
    exact Bool.eq_false_iff.mpr fun halive ↦ Bool.eq_false_iff.mp hr (hfewer r halive)

/-- **A single writer**: along every careful run, whatever processes do and wherever they crash, at
most one live process has a handle it has not released. -/
theorem exclusive_of_careful (ms : List LeaseMove) (s : LeaseState) (hstart : Started s)
    (h : Run.Along (move path) Careful ms s) : Exclusive (Run.run (move path) ms s) := by
  have hmove : ∀ m s, Inv s → Careful m s → Inv (move path m s) :=
    fun _ _ hs hcareful ↦ hs.move path hcareful
  exact (h.run hmove hstart.inv).exclusive

/-! ### A lock file that was left -/

/-- The lock file of process 9, which is gone; all others are alive. -/
private def leftBehind : LeaseState where
  file :=
    { here := some 0
      next := 1
      content := fun g ↦ if g = 0 then some 9 else none
      creator := fun _ ↦ some 9
      here_lt := fun g hg ↦ by
        cases hg
        exact Nat.zero_lt_one
      fresh := fun g hg ↦ if_neg (Nat.ne_of_gt hg) }
  alive p := decide (p ≠ 0 ∧ p ≠ 9)
  control _ := .idle none
  handles _ := []
  no_zero := rfl

private theorem started_leftBehind : Started leftBehind where
  file g hg := by
    cases hg
    exact ⟨9, rfl, by decide, rfl⟩
  idle _ := rfl
  handles _ := rfl

/-- A process reclaims the lock file and takes the lease. -/
theorem exclusive_of_careful_leftBehind : Exclusive (Run.run (move "lease")
    [.acquireLease 1, .advance 1, .advance 1, .advance 1, .advance 1, .advance 1, .advance 1]
    leftBehind) :=
  exclusive_of_careful "lease" _ leftBehind started_leftBehind
    (And.intro rfl <| And.intro trivial <| And.intro trivial <| And.intro trivial <|
      And.intro (fun _ hg ↦ .inl hg) <| And.intro trivial <| And.intro trivial trivial)

/-- Two processes read the same file and find its process gone. One of them removes it and takes the
lease; the other removes the file of the first. -/
private def twoReclaim : List LeaseMove :=
  [.acquireLease 1, .acquireLease 2, .advance 1, .advance 1, .advance 1, .advance 2, .advance 2,
    .advance 2, .advance 1, .advance 1, .advance 1, .advance 2, .advance 2, .advance 2]

/-- **Two writers**, from a lock file that was left. -/
theorem not_exclusive_twoReclaim :
    Started leftBehind ∧ ¬Exclusive (Run.run (move "lease") twoReclaim leftBehind) := by
  refine ⟨started_leftBehind, fun h ↦ ?_⟩
  have h1 : Holds (Run.run (move "lease") twoReclaim leftBehind) 1 :=
    ⟨by decide, by decide⟩
  have h2 : Holds (Run.run (move "lease") twoReclaim leftBehind) 2 :=
    ⟨by decide, by decide⟩
  exact absurd (h 1 2 h1 h2) (by decide)

end QwenHarness.Daemon
