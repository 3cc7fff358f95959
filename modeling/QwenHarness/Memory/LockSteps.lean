import QwenHarness.Memory.FileLock

/-!
# Exclusion of the memory lock

What one file step does to the leases and to those who write. A step that does not touch the file
changes one client or one call; of the steps that do, a writer begins with an empty file, a writer
ends with its record in it, or the file is removed. Each keeps the invariant as long as it acts on
what its caller has read.
-/

namespace QwenHarness.Memory

variable (lockPath : String) {options : ℕ → AcquireOptions}

/-! ### What a step leaves -/

/-- A later state: time has not gone back, no file has changed its creator, and whoever had a lock
has it, on the same file, released if it was. -/
structure Later (s s' : LockState) : Prop where
  now : s.now ≤ s'.now
  next : s.file.next ≤ s'.file.next
  creator : ∀ g, g < s.file.next → s'.file.creator g = s.file.creator g
  locked : ∀ c lock, s.client c = .locked lock → ∃ lock', s'.client c = .locked lock' ∧
    lock'.file = lock.file ∧ (lock.released = true → lock'.released = true)

theorem ClientKnown.mono {s s' : LockState} {c : ℕ} {x : Client} (h : ClientKnown s c x)
    (hlater : Later s s') : ClientKnown s' c x := by
  cases x with
  | opening deadline now => exact h.trans hlater.now
  | reading deadline now => exact h.trans hlater.now
  | closing g record =>
    exact ⟨(hlater.creator g h.2).trans h.1, h.2.trans_le hlater.next⟩
  | stealing deadline seen =>
    intro found hfound
    obtain ⟨record, hrecord, hle⟩ := h found hfound
    exact ⟨record, hrecord, hle.trans hlater.now⟩
  | locked lock =>
    exact ⟨(hlater.creator lock.file h.2).trans h.1, h.2.trans_le hlater.next⟩
  | _ => trivial

theorem Timely.mono {s s' : LockState} {c : ℕ} {record : LockRecord} (h : Timely options s c record)
    (hnow : s.now ≤ s'.now) : Timely options s' c record :=
  h.trans (Nat.add_le_add_right hnow _)

theorem TaskKnown.mono {s s' : LockState} {x : Task} (h : TaskKnown options s x)
    (hlater : Later s s') : TaskKnown options s' x := by
  cases x with
  | done thrown => trivial
  | renewReading c =>
    obtain ⟨lock, hc⟩ := h
    obtain ⟨lock', hc', -⟩ := hlater.locked c lock hc
    exact ⟨lock', hc'⟩
  | renewOpening c seen record =>
    obtain ⟨lock, r, hc, hseen, hle, htimely⟩ := h
    obtain ⟨lock', hc', hfile, -⟩ := hlater.locked c lock hc
    exact ⟨lock', r, hc', by rw [hfile, hseen], hle, htimely.mono hlater.now⟩
  | renewWriting c fd record =>
    obtain ⟨lock, hc, hfd⟩ := h
    obtain ⟨lock', hc', hfile, -⟩ := hlater.locked c lock hc
    exact ⟨lock', hc', by rw [hfile, hfd]⟩
  | renewClosing c record =>
    obtain ⟨lock, hc⟩ := h
    obtain ⟨lock', hc', -⟩ := hlater.locked c lock hc
    exact ⟨lock', hc'⟩
  | releaseReading c =>
    obtain ⟨lock, hc, hreleased⟩ := h
    obtain ⟨lock', hc', -, hstill⟩ := hlater.locked c lock hc
    exact ⟨lock', hc', hstill hreleased⟩
  | releaseRemoving c seen =>
    obtain ⟨lock, r, hc, hreleased, hseen⟩ := h
    obtain ⟨lock', hc', hfile, hstill⟩ := hlater.locked c lock hc
    exact ⟨lock', r, hc', hstill hreleased, by rw [hfile, hseen]⟩

section Frame

variable {s s' : LockState} (h : Inv options s)

include h

/-- The parts of the invariant that are about one client or one call, after a step that changes few
of them. -/
theorem Inv.of_later (hlater : Later s s')
    (hbacked : ∀ c g e, Lease s' c g e → Backed s' c g e)
    (hwriting : ∀ w c g record, Writing s' w c g record → s'.file.here = some g ∧
      s'.file.content g = none ∧ s'.file.creator g = some c ∧ Timely options s' c record ∧
        ∀ c' e, Lease s' c' g e → e ≤ s'.now ∨ e ≤ record.leaseExpiresAt)
    (hsole : ∀ w w' c c' g g' record record', Writing s' w c g record →
      Writing s' w' c' g' record' → w = w')
    (hwritten : ∀ g c record, s'.file.content g = some record → s'.file.creator g = some c →
      Timely options s' c record)
    (hclient : ∀ c, s'.client c = s.client c ∨ ClientKnown s' c (s'.client c))
    (htask : ∀ t, s'.task t = s.task t ∨ TaskKnown options s' (s'.task t)) : Inv options s' where
  backed := hbacked
  writing := hwriting
  sole := hsole
  written := hwritten
  client c := by
    rcases hclient c with hsame | hknown
    · rw [hsame]
      exact (h.client c).mono hlater
    · exact hknown
  task t := by
    rcases htask t with hsame | hknown
    · rw [hsame]
      exact (h.task t).mono hlater
    · exact hknown

/-- A step that does not touch the file, and makes no new lease and no new writer. -/
theorem Inv.quiet (hfile : s'.file = s.file) (hlater : Later s s')
    (hlease : ∀ c g e, Lease s' c g e → Lease s c g e)
    (hwriting : ∀ w c g record, Writing s' w c g record → Writing s w c g record)
    (hclient : ∀ c, s'.client c = s.client c ∨ ClientKnown s' c (s'.client c))
    (htask : ∀ t, s'.task t = s.task t ∨ TaskKnown options s' (s'.task t)) : Inv options s' := by
  refine h.of_later hlater (fun c g e hle ↦ ?_) (fun w c g record hw ↦ ?_) ?_ ?_ hclient htask
  · rw [Backed, hfile]
    exact (h.backed c g e (hlease c g e hle)).imp_left fun hended ↦ hended.trans hlater.now
  · obtain ⟨hhere, hcontent, hcreator, htimely, hleases⟩ := h.writing w c g record
      (hwriting w c g record hw)
    rw [hfile]
    refine ⟨hhere, hcontent, hcreator, htimely.mono hlater.now, fun c' e hle ↦ ?_⟩
    exact (hleases c' e (hlease c' g e hle)).imp_left fun hended ↦ hended.trans hlater.now
  · exact fun w w' c c' g g' record record' hw hw' ↦ h.sole w w' c c' g g' record record'
      (hwriting w c g record hw) (hwriting w' c' g' record' hw')
  · rw [hfile]
    exact fun g c record hx hc ↦ (h.written g c record hx hc).mono hlater.now

end Frame

/-! ### Leases and writers after a change -/

section Changes

variable {s : LockState}

@[simp] theorem client_setClient (c : ℕ) (x : Client) : (s.setClient c x).client c = x :=
  Function.update_self _ _ _

theorem client_setClient_of_ne {c c' : ℕ} (h : c' ≠ c) (x : Client) :
    (s.setClient c x).client c' = s.client c' := Function.update_of_ne h _ _

@[simp] theorem task_setTask (t : ℕ) (x : Task) : (s.setTask t x).task t = x :=
  Function.update_self _ _ _

theorem task_setTask_of_ne {t t' : ℕ} (h : t' ≠ t) (x : Task) :
    (s.setTask t x).task t' = s.task t' := Function.update_of_ne h _ _

/-- A client that has no lease in this state. -/
def Client.NoLease : Client → Prop
  | .closing _ _ | .locked _ => False
  | _ => True

theorem lease_setFile {file : Slot ℕ LockRecord} {c g e : ℕ} (h : Lease (s.setFile file) c g e) :
    Lease s c g e := by
  cases h with
  | closing hc => exact .closing hc
  | held hc hreleased => exact .held hc hreleased
  | renewed ht hc hreleased => exact .renewed ht hc hreleased

theorem writing_setFile {file : Slot ℕ LockRecord} {w : Writer} {c g : ℕ} {record : LockRecord}
    (h : Writing (s.setFile file) w c g record) : Writing s w c g record := by
  cases h with
  | client hc => exact .client hc
  | task ht => exact .task ht

theorem lease_setClient {c : ℕ} {x : Client} (hx : x.NoLease) {c' g e : ℕ}
    (h : Lease (s.setClient c x) c' g e) : Lease s c' g e := by
  have hne : ∀ {y}, (s.setClient c x).client c' = y → ¬y.NoLease → s.client c' = y := by
    intro y hy hplain
    by_cases hc : c' = c
    · rw [hc, client_setClient] at hy
      exact absurd (hy ▸ hx) hplain
    · rwa [client_setClient_of_ne hc] at hy
  cases h with
  | closing hc => exact .closing (hne hc id)
  | held hc hreleased => exact .held (hne hc id) hreleased
  | renewed ht hc hreleased => exact .renewed ht (hne hc id) hreleased

theorem writing_setClient {c : ℕ} {x : Client} (hx : ∀ g record, x ≠ .writing g record) {w : Writer}
    {c' g : ℕ} {record : LockRecord} (h : Writing (s.setClient c x) w c' g record) :
    Writing s w c' g record := by
  cases h with
  | client hc =>
    by_cases hcc : c' = c
    · rw [hcc, client_setClient] at hc
      exact absurd hc (hx g record)
    · exact .client (by rwa [client_setClient_of_ne hcc] at hc)
  | task ht => exact .task ht

theorem lease_setTask {t : ℕ} {x : Task} (hx : ∀ c record, x ≠ .renewClosing c record) {c g e : ℕ}
    (h : Lease (s.setTask t x) c g e) : Lease s c g e := by
  cases h with
  | closing hc => exact .closing hc
  | held hc hreleased => exact .held hc hreleased
  | @renewed t' lock record ht hc hreleased =>
    by_cases htt : t' = t
    · rw [htt, task_setTask] at ht
      exact absurd ht (hx c record)
    · exact .renewed (by rwa [task_setTask_of_ne htt] at ht) hc hreleased

theorem writing_setTask {t : ℕ} {x : Task} (hx : ∀ c g record, x ≠ .renewWriting c g record)
    {w : Writer} {c g : ℕ} {record : LockRecord} (h : Writing (s.setTask t x) w c g record) :
    Writing s w c g record := by
  cases h with
  | client hc => exact .client hc
  | @task t' _ _ _ ht =>
    by_cases htt : t' = t
    · rw [htt, task_setTask] at ht
      exact absurd ht (hx c g record)
    · exact .task (by rwa [task_setTask_of_ne htt] at ht)

/-- A client that had no lock leaves the locks as they are. -/
theorem later_setClient {c : ℕ} {x : Client} (hc : ∀ lock, s.client c ≠ .locked lock) :
    Later s (s.setClient c x) := by
  refine ⟨le_rfl, le_rfl, fun _ _ ↦ rfl, fun c' lock hlock ↦ ⟨lock, ?_, rfl, id⟩⟩
  by_cases hcc : c' = c
  · exact absurd (hcc ▸ hlock) (hc lock)
  · rw [client_setClient_of_ne hcc, hlock]

theorem later_setTask {t : ℕ} {x : Task} : Later s (s.setTask t x) :=
  ⟨le_rfl, le_rfl, fun _ _ ↦ rfl, fun _ lock hlock ↦ ⟨lock, hlock, rfl, id⟩⟩

/-- A step of `acquire` that does not touch the file and gives no lease. -/
theorem Inv.setClient (h : Inv options s) {c : ℕ} {x : Client} (hx : x.NoLease)
    (hw : ∀ g record, x ≠ .writing g record) (hc : ∀ lock, s.client c ≠ .locked lock)
    (hknown : ClientKnown s c x) : Inv options (s.setClient c x) := by
  refine h.quiet rfl (later_setClient hc) (fun _ _ _ ↦ lease_setClient hx)
    (fun _ _ _ _ ↦ writing_setClient hw) (fun c' ↦ ?_) fun _ ↦ .inl rfl
  by_cases hcc : c' = c
  · right
    rw [hcc, client_setClient]
    exact hknown.mono (later_setClient hc)
  · exact .inl (client_setClient_of_ne hcc x)

/-- A step of `renew` or `release` that does not touch the file and gives no lease. -/
theorem Inv.setTask (h : Inv options s) {t : ℕ} {x : Task}
    (hx : ∀ c record, x ≠ .renewClosing c record)
    (hw : ∀ c g record, x ≠ .renewWriting c g record) (hknown : TaskKnown options s x) :
    Inv options (s.setTask t x) := by
  refine h.quiet rfl later_setTask (fun _ _ _ ↦ lease_setTask hx)
    (fun _ _ _ _ ↦ writing_setTask hw) (fun _ ↦ .inl rfl) fun t' ↦ ?_
  by_cases htt : t' = t
  · right
    rw [htt, task_setTask]
    exact hknown.mono later_setTask
  · exact .inl (task_setTask_of_ne htt x)

end Changes

/-! ### Steps that touch the file -/

section Touch

variable {s s' : LockState} (h : Inv options s)

include h

/-- Where there is no file, or one with a record in it, nobody writes. -/
theorem Inv.not_writing (hfile : ∀ g, s.file.here = some g → s.file.content g ≠ none) (w : Writer)
    (c g : ℕ) (record : LockRecord) : ¬Writing s w c g record := fun hw ↦ by
  obtain ⟨hhere, hcontent, -⟩ := h.writing w c g record hw
  exact hfile g hhere hcontent

/-- **A writer begins**, with the only file it can write to: new, or one it has emptied. -/
theorem Inv.begin (hlater : Later s s') {w : Writer} {c g : ℕ}
    {record : LockRecord} (hhere : s'.file.here = some g) (hcontent : s'.file.content g = none)
    (hcreator : s'.file.creator g = some c) (htimely : Timely options s c record)
    (honly : ∀ w' c' g' record', Writing s' w' c' g' record' →
      w' = w ∧ c' = c ∧ g' = g ∧ record' = record)
    (hlease : ∀ c' g' e, Lease s' c' g' e → e ≤ s.now ∨
      g' = g ∧ c' = c ∧ e ≤ record.leaseExpiresAt)
    (hold : ∀ g' x, s'.file.content g' = some x → s.file.content g' = some x ∧
      s'.file.creator g' = s.file.creator g')
    (hclient : ∀ c, s'.client c = s.client c ∨ ClientKnown s' c (s'.client c))
    (htask : ∀ t, s'.task t = s.task t ∨ TaskKnown options s' (s'.task t)) : Inv options s' := by
  refine h.of_later hlater (fun c' g' e hle ↦ ?_) (fun w' c' g' record' hw ↦ ?_) ?_ ?_ hclient htask
  · rcases hlease c' g' e hle with hended | ⟨rfl, rfl, -⟩
    · exact .inl (hended.trans hlater.now)
    · refine .inr ⟨hhere, hcreator, fun x hx ↦ ?_⟩
      rw [hcontent] at hx
      cases hx
  · obtain ⟨-, rfl, rfl, rfl⟩ := honly w' c' g' record' hw
    refine ⟨hhere, hcontent, hcreator, htimely.mono hlater.now, fun c'' e hle ↦ ?_⟩
    exact (hlease c'' g' e hle).imp (fun hended ↦ hended.trans hlater.now) fun hle ↦ hle.2.2
  · intro w' w'' c' c'' g' g'' record' record'' hw' hw''
    rw [(honly w' c' g' record' hw').1, (honly w'' c'' g'' record'' hw'').1]
  · intro g' c' x hx hc'
    obtain ⟨hx', hsame⟩ := hold g' x hx
    exact (h.written g' c' x hx' (hsame ▸ hc')).mono hlater.now

/-- **A writer ends**: its record is in the file, and its lease runs. -/
theorem Inv.land (hlater : Later s s') {w : Writer} {c g : ℕ}
    {record : LockRecord} (hw : Writing s w c g record)
    (hfile : s'.file = s.file.set g (some record))
    (hnone : ∀ w' c' g' record', ¬Writing s' w' c' g' record')
    (hlease : ∀ c' g' e, Lease s' c' g' e →
      Lease s c' g' e ∨ c' = c ∧ g' = g ∧ e = record.leaseExpiresAt)
    (hclient : ∀ c, s'.client c = s.client c ∨ ClientKnown s' c (s'.client c))
    (htask : ∀ t, s'.task t = s.task t ∨ TaskKnown options s' (s'.task t)) : Inv options s' := by
  obtain ⟨hhere, hcontent, hcreator, htimely, hleases⟩ := h.writing w c g record hw
  have hself : s'.file.content g = some record := by
    rw [hfile]
    exact Slot.content_set_self (s.file.here_lt g hhere) _
  have hstands : s'.file.here = some g ∧ s'.file.creator g = some c := by
    rw [hfile]
    exact ⟨hhere, hcreator⟩
  refine h.of_later hlater (fun c' g' e hle ↦ ?_)
    (fun w' c' g' record' hw' ↦ absurd hw' (hnone _ _ _ _))
    (fun w' _ c' _ g' _ record' _ hw' ↦ absurd hw' (hnone _ _ _ _)) ?_ hclient htask
  · rcases hlease c' g' e hle with hold | ⟨rfl, rfl, rfl⟩
    · rcases h.backed c' g' e hold with hended | ⟨hhere', hcreator', -⟩
      · exact .inl (hended.trans hlater.now)
      · obtain rfl : g = g' := Option.some.inj (hhere.symm.trans hhere')
        rcases hleases c' e hold with hended | hle'
        · exact .inl (hended.trans hlater.now)
        · refine .inr ⟨hstands.1, by rw [hfile]; exact hcreator', fun x hx ↦ ?_⟩
          rwa [← Option.some.inj (hself.symm.trans hx)]
    · refine .inr ⟨hstands.1, hstands.2, fun x hx ↦ ?_⟩
      rw [← Option.some.inj (hself.symm.trans hx)]
  · intro g' c' x hx hc'
    by_cases hg : g' = g
    · subst hg
      rw [← Option.some.inj (hself.symm.trans hx)]
      rw [← Option.some.inj (hstands.2.symm.trans hc')]
      exact htimely.mono hlater.now
    · rw [hfile, Slot.content_set_of_ne hg] at hx
      rw [hfile] at hc'
      exact (h.written g' c' x hx hc').mono hlater.now

/-- **The file is removed** where no lease on it runs and nobody writes to it. -/
theorem Inv.unlinked (hlater : Later s s') (hfile : s'.file = s.file.unlink)
    (hnone : ∀ w c g record, ¬Writing s' w c g record)
    (hlease : ∀ c g e, Lease s' c g e → e ≤ s.now)
    (hclient : ∀ c, s'.client c = s.client c ∨ ClientKnown s' c (s'.client c))
    (htask : ∀ t, s'.task t = s.task t ∨ TaskKnown options s' (s'.task t)) : Inv options s' := by
  refine h.of_later hlater (fun c g e hle ↦ .inl ((hlease c g e hle).trans hlater.now))
    (fun w c g record hw ↦ absurd hw (hnone _ _ _ _))
    (fun w _ c _ g _ record _ hw ↦ absurd hw (hnone _ _ _ _)) ?_ hclient htask
  rw [hfile]
  exact fun g c x hx hc ↦ (h.written g c x hx hc).mono hlater.now

end Touch

/-! ### One step -/

section Step

variable {s : LockState} (h : Inv options s)

include h

/-- The file is gone, so every lease on it has ended. -/
theorem Inv.ended_of_here_eq_none (hhere : s.file.here = none) {c g e : ℕ} (hle : Lease s c g e) :
    e ≤ s.now := by
  rcases h.backed c g e hle with hended | ⟨hfile, -⟩
  · exact hended
  · rw [hhere] at hfile
    cases hfile

omit h in
theorem found_of_read {found : Found} (hread : s.file.read = some found)
    (hcareful : ∀ g, s.file.here = some g → s.file.content g ≠ none) :
    ∃ record, found.2 = some record ∧ s.file.here = some found.1 ∧
      s.file.content found.1 = some record := by
  obtain ⟨hhere, hcontent⟩ := Slot.read_eq_some_iff.mp hread
  obtain ⟨record, hrecord⟩ := Option.ne_none_iff_exists'.mp (hcareful found.1 hhere)
  exact ⟨record, hcontent.symm.trans hrecord, hhere, hrecord⟩

theorem Inv.create {c deadline now : ℕ} (hc : s.client c = .opening deadline now)
    (hhere : s.file.here = none) :
    Inv options ((s.setFile (s.file.create (some c))).setClient c
      (.writing s.file.next (newRecord options c now))) := by
  have hnow : now ≤ s.now := by
    have hknown := h.client c
    rw [hc] at hknown
    exact hknown
  have hbefore := h.not_writing (fun g hg ↦ by rw [hhere] at hg; cases hg)
  have hlocked : ∀ lock, s.client c ≠ .locked lock := fun lock hlock ↦ by
    rw [hc] at hlock
    cases hlock
  have htimely : Timely options s c (newRecord options c now) := Nat.add_le_add_right hnow _
  refine h.begin (w := .client c)
    ⟨le_rfl, Nat.le_succ _, fun g hg ↦ Slot.creator_create_of_lt hg _,
      (later_setClient hlocked).locked⟩
    rfl (s.file.fresh _ le_rfl) (Slot.creator_create_self _) htimely
    (fun w' c' g' record' hw ↦ ?_) (fun c' g' e hle ↦ ?_) (fun g' x hx ↦ ⟨hx, ?_⟩)
    (fun c' ↦ ?_) fun _ ↦ .inl rfl
  · cases hw with
    | client hcw =>
      by_cases hcc : c' = c
      · subst hcc
        rw [client_setClient] at hcw
        cases hcw
        exact ⟨rfl, rfl, rfl, rfl⟩
      · rw [client_setClient_of_ne hcc] at hcw
        exact absurd (.client hcw) (hbefore _ _ _ _)
    | task ht => exact absurd (.task ht) (hbefore _ _ _ _)
  · exact .inl (h.ended_of_here_eq_none hhere
      (lease_setFile (lease_setClient (x := .writing _ _) trivial hle)))
  · have hlt : g' < s.file.next := Slot.lt_of_content (x := x) hx
    exact Slot.creator_create_of_lt hlt _
  · by_cases hcc : c' = c
    · right
      rw [hcc, client_setClient]
      trivial
    · exact .inl (client_setClient_of_ne hcc _)

theorem Inv.clientWrite {c fd : ℕ} {record : LockRecord} (hc : s.client c = .writing fd record) :
    Inv options ((s.setFile (s.file.set fd (some record))).setClient c (.closing fd record)) := by
  have hw : Writing s (.client c) c fd record := .client hc
  obtain ⟨hhere, -, hcreator, -⟩ := h.writing _ _ _ _ hw
  have hlocked : ∀ lock, s.client c ≠ .locked lock := fun lock hlock ↦ by
    rw [hc] at hlock
    cases hlock
  refine h.land ⟨le_rfl, le_rfl, fun _ _ ↦ rfl, (later_setClient hlocked).locked⟩ hw rfl
    (fun w' c' g' record' hw' ↦ ?_) (fun c' g' e hle ↦ ?_) (fun c' ↦ ?_) fun _ ↦ .inl rfl
  · -- whoever still wrote would have written before, and there is only this client
    have hbefore := writing_setFile (writing_setClient (x := .closing fd record) (by simp) hw')
    obtain rfl := h.sole _ _ _ _ _ _ _ _ hbefore hw
    cases hw' with
    | client hc' =>
      rw [client_setClient] at hc'
      cases hc'
  · cases hle with
    | closing hc' =>
      by_cases hcc : c' = c
      · subst hcc
        rw [client_setClient] at hc'
        cases hc'
        exact .inr ⟨rfl, rfl, rfl⟩
      · exact .inl (.closing (by rwa [client_setClient_of_ne hcc] at hc'))
    | held hc' hreleased =>
      by_cases hcc : c' = c
      · subst hcc
        rw [client_setClient] at hc'
        cases hc'
      · exact .inl (.held (by rwa [client_setClient_of_ne hcc] at hc') hreleased)
    | renewed ht hc' hreleased =>
      by_cases hcc : c' = c
      · subst hcc
        rw [client_setClient] at hc'
        cases hc'
      · exact .inl (.renewed ht (by rwa [client_setClient_of_ne hcc] at hc') hreleased)
  · by_cases hcc : c' = c
    · right
      rw [hcc, client_setClient]
      exact ⟨hcreator, s.file.here_lt fd hhere⟩
    · exact .inl (client_setClient_of_ne hcc _)

/-- The client has the lock, with the lease it had. -/
theorem Inv.clientClose {c fd : ℕ} {record : LockRecord} (hc : s.client c = .closing fd record) :
    Inv options (s.setClient c (.locked ⟨fd, record.leaseExpiresAt, false⟩)) := by
  have hknown := h.client c
  rw [hc] at hknown
  have hlocked : ∀ lock, s.client c ≠ .locked lock := fun lock hlock ↦ by
    rw [hc] at hlock
    cases hlock
  refine h.quiet rfl (later_setClient hlocked) (fun c' g e hle ↦ ?_)
    (fun _ _ _ _ ↦ writing_setClient (by simp)) (fun c' ↦ ?_) fun _ ↦ .inl rfl
  · cases hle with
    | closing hc' =>
      by_cases hcc : c' = c
      · subst hcc
        rw [client_setClient] at hc'
        cases hc'
      · exact .closing (by rwa [client_setClient_of_ne hcc] at hc')
    | held hc' hreleased =>
      by_cases hcc : c' = c
      · subst hcc
        rw [client_setClient] at hc'
        cases hc'
        exact .closing hc
      · exact .held (by rwa [client_setClient_of_ne hcc] at hc') hreleased
    | @renewed t lock record' ht hc' hreleased =>
      by_cases hcc : c' = c
      · -- a renewal is of a client that has the lock already
        subst hcc
        have htask := h.task t
        rw [show s.task t = .renewClosing c' record' from ht] at htask
        obtain ⟨lock', hlock'⟩ := htask
        exact absurd hlock' (hlocked lock')
      · exact .renewed ht (by rwa [client_setClient_of_ne hcc] at hc') hreleased
  · by_cases hcc : c' = c
    · right
      rw [hcc, client_setClient]
      exact hknown
    · exact .inl (client_setClient_of_ne hcc _)

/-- The stealer removes a file whose lease has ended. -/
theorem Inv.steal {c deadline : ℕ} {seen : Option Found} (hc : s.client c = .stealing deadline seen)
    (hcareful : s.file.here = none ∨ s.file.read = seen) :
    Inv options ((s.setFile s.file.unlink).setClient c (.opening deadline s.now)) := by
  have hknown := h.client c
  rw [hc] at hknown
  have hlocked : ∀ lock, s.client c ≠ .locked lock := fun lock hlock ↦ by
    rw [hc] at hlock
    cases hlock
  -- the record that was read is still there, so whoever has a lease on the file has one that ended
  have hfile : ∀ g, s.file.here = some g →
      ∃ record, s.file.content g = some record ∧ record.leaseExpiresAt ≤ s.now := by
    intro g hg
    rcases hcareful with hnone | hread
    · rw [hnone] at hg
      cases hg
    · have hsome : s.file.read = some (g, s.file.content g) := by rw [Slot.read, hg]; rfl
      obtain ⟨record, hrecord, hle⟩ := hknown _ (hread.symm.trans hsome)
      exact ⟨record, hrecord, hle⟩
  have hended : ∀ c g e, Lease s c g e → e ≤ s.now := by
    intro c g e hle
    rcases h.backed c g e hle with hended | ⟨hhere, -, hcontent⟩
    · exact hended
    · obtain ⟨record, hrecord, hstale⟩ := hfile g hhere
      exact (hcontent record hrecord).trans hstale
  have hnone := h.not_writing fun g hg ↦ by
    obtain ⟨record, hrecord, -⟩ := hfile g hg
    rw [hrecord]
    simp
  refine h.unlinked ⟨le_rfl, le_rfl, fun _ _ ↦ rfl, (later_setClient hlocked).locked⟩ rfl
    (fun w c' g record hw ↦ hnone w c' g record
      (writing_setFile (writing_setClient (x := .opening deadline s.now) (by simp) hw)))
    (fun c' g e hle ↦ hended c' g e
      (lease_setFile (lease_setClient (x := .opening _ _) trivial hle))) (fun c' ↦ ?_)
    fun _ ↦ .inl rfl
  by_cases hcc : c' = c
  · right
    rw [hcc, client_setClient]
    exact le_rfl
  · exact .inl (client_setClient_of_ne hcc _)

/-- **A careful step of `acquire`** keeps the invariant. -/
theorem Inv.advance {c : ℕ} (hcareful : Careful options (.advance c) s) :
    Inv options (advance lockPath options c s) := by
  rw [Memory.advance]
  rw [Careful] at hcareful
  have hknown := h.client c
  rcases hc : s.client c with _ | deadline | ⟨deadline, now⟩ | ⟨fd, record⟩ | ⟨fd, record⟩ |
    ⟨deadline, now⟩ | ⟨deadline, seen⟩ | ⟨deadline, wake⟩ | message | lock
  all_goals simp only [hc] at hcareful hknown ⊢
  · exact h
  · exact h.setClient trivial (by simp) (by simp [hc]) le_rfl
  · rcases hhere : s.file.here with - | g
    · exact h.create hc hhere
    · exact h.setClient trivial (by simp) (by simp [hc]) le_rfl
  · exact h.clientWrite hc
  · exact h.clientClose hc
  · by_cases hstale : isStale s.file.read now = true
    · rw [if_pos hstale]
      refine h.setClient trivial (by simp) (by simp [hc]) fun found hfound ↦ ?_
      obtain ⟨record, hrecord, -⟩ := found_of_read hfound hcareful
      have hfound' : s.file.read = some (found.1, some record) := by rw [hfound, ← hrecord]
      rw [hfound', isStale, decide_eq_true_eq] at hstale
      exact ⟨record, hrecord, hstale.trans hknown⟩
    · rw [if_neg hstale]
      split_ifs with hdeadline
      · exact h.setClient trivial (by simp) (by simp [hc]) trivial
      · exact h.setClient trivial (by simp) (by simp [hc]) trivial
  · exact h.steal hc hcareful
  · split_ifs with hwake
    · exact h.setClient trivial (by simp) (by simp [hc]) le_rfl
    · exact h
  · exact h
  · exact h

/-- A renewal empties the file of its client, which is as it was read. -/
theorem Inv.renewOpen {t c : ℕ} {seen : Found} {record : LockRecord}
    (ht : s.task t = .renewOpening c seen record) (hcareful : s.file.read = some seen) :
    Inv options ((s.setFile s.openOver.2).setTask t (.renewWriting c s.openOver.1 record)) := by
  have hknown := h.task t
  rw [ht] at hknown
  obtain ⟨lock, r, hc, rfl, hle, htimely⟩ := hknown
  obtain ⟨hhere, hcontent⟩ := Slot.read_eq_some_iff.mp hcareful
  have hcreator : s.file.creator lock.file = some c := by
    have hclient := h.client c
    rw [hc] at hclient
    exact hclient.1
  have hover : s.openOver = (lock.file, s.file.set lock.file none) := by
    rw [LockState.openOver, hhere]
  have hbefore := h.not_writing fun g hg ↦ by
    obtain rfl : lock.file = g := Option.some.inj (hhere.symm.trans hg)
    rw [hcontent]
    simp
  rw [hover]
  refine h.begin (w := .task t)
    ⟨le_rfl, le_rfl, fun _ _ ↦ rfl, fun _ lock hlock ↦ ⟨lock, hlock, rfl, id⟩⟩ hhere
    (Slot.content_set_self (s.file.here_lt _ hhere) _) hcreator htimely
    (fun w' c' g' record' hw ↦ ?_) (fun c' g' e hle' ↦ ?_) (fun g' x hx ↦ ?_)
    (fun _ ↦ .inl rfl) fun t' ↦ ?_
  · cases hw with
    | client hc' => exact absurd (.client hc') (hbefore _ _ _ _)
    | @task t' _ _ _ ht' =>
      by_cases htt : t' = t
      · subst htt
        rw [task_setTask] at ht'
        cases ht'
        exact ⟨rfl, rfl, rfl, rfl⟩
      · rw [task_setTask_of_ne htt] at ht'
        exact absurd (.task ht') (hbefore _ _ _ _)
  · have hbackedLease := lease_setFile (lease_setTask (x := .renewWriting c lock.file record)
      (by simp) hle')
    rcases h.backed c' g' e hbackedLease with hended | ⟨hhere', hcreator', hrecord⟩
    · exact .inl hended
    · obtain rfl : lock.file = g' := Option.some.inj (hhere.symm.trans hhere')
      refine .inr ⟨rfl, ?_, (hrecord r hcontent).trans hle⟩
      exact Option.some.inj (hcreator'.symm.trans hcreator)
  · by_cases hg : g' = lock.file
    · have hself : (s.file.set lock.file none).content lock.file = none :=
        Slot.content_set_self (s.file.here_lt _ hhere) _
      rw [hg] at hx
      exact absurd (hself.symm.trans hx) (by simp)
    · exact ⟨(Slot.content_set_of_ne hg _).symm.trans hx, rfl⟩
  · by_cases htt : t' = t
    · right
      rw [htt, task_setTask]
      exact ⟨lock, hc, rfl⟩
    · exact .inl (task_setTask_of_ne htt _)

theorem Inv.renewWrite {t c fd : ℕ} {record : LockRecord}
    (ht : s.task t = .renewWriting c fd record) :
    Inv options ((s.setFile (s.file.set fd (some record))).setTask t (.renewClosing c record)) := by
  have hw : Writing s (.task t) c fd record := .task ht
  have hknown := h.task t
  rw [ht] at hknown
  obtain ⟨lock, hc, rfl⟩ := hknown
  refine h.land ⟨le_rfl, le_rfl, fun _ _ ↦ rfl, fun _ lock hlock ↦ ⟨lock, hlock, rfl, id⟩⟩ hw rfl
    (fun w' c' g' record' hw' ↦ ?_) (fun c' g' e hle ↦ ?_) (fun _ ↦ .inl rfl) fun t' ↦ ?_
  · have hbefore := writing_setFile (writing_setTask (x := .renewClosing c record) (by simp) hw')
    obtain rfl := h.sole _ _ _ _ _ _ _ _ hbefore hw
    cases hw' with
    | task ht' =>
      rw [task_setTask] at ht'
      cases ht'
  · cases hle with
    | closing hc' => exact .inl (.closing hc')
    | held hc' hreleased => exact .inl (.held hc' hreleased)
    | @renewed t' lock' record' ht' hc' hreleased =>
      by_cases htt : t' = t
      · subst htt
        rw [task_setTask] at ht'
        cases ht'
        obtain rfl : lock = lock' := Client.locked.inj (hc.symm.trans hc')
        exact .inr ⟨rfl, rfl, rfl⟩
      · exact .inl (.renewed (by rwa [task_setTask_of_ne htt] at ht') hc' hreleased)
  · by_cases htt : t' = t
    · right
      rw [htt, task_setTask]
      exact ⟨lock, hc⟩
    · exact .inl (task_setTask_of_ne htt _)

omit h in
theorem not_lease_of_released {c g e : ℕ} {lock : FileLock} (hc : s.client c = .locked lock)
    (hreleased : lock.released = true) : ¬Lease s c g e := by
  intro hle
  cases hle with
  | closing hc' =>
    rw [hc] at hc'
    cases hc'
  | held hc' hreleased' =>
    rw [Client.locked.inj (hc.symm.trans hc'), hreleased'] at hreleased
    cases hreleased
  | renewed ht hc' hreleased' =>
    rw [Client.locked.inj (hc.symm.trans hc'), hreleased'] at hreleased
    cases hreleased

omit h in
/-- A lock that changes its lease or is released stays with its client, on its file. -/
theorem later_setLocked {t c : ℕ} {x : Task} {lock lock' : FileLock}
    (hc : s.client c = .locked lock) (hfile : lock'.file = lock.file) (hreleased : lock.released = true → lock'.released = true) :
    Later s ((s.setClient c (.locked lock')).setTask t x) := by
  refine ⟨le_rfl, le_rfl, fun _ _ ↦ rfl, fun c' lock'' hlock'' ↦ ?_⟩
  by_cases hcc : c' = c
  · subst hcc
    obtain rfl : lock = lock'' := Client.locked.inj (hc.symm.trans hlock'')
    exact ⟨lock', client_setClient c' _, hfile, hreleased⟩
  · exact ⟨lock'', (client_setClient_of_ne hcc _).trans hlock'', rfl, id⟩

/-- A change of a lock that gives no new lease. -/
theorem Inv.setLocked {t c : ℕ} {x : Task} {lock lock' : FileLock} (hc : s.client c = .locked lock)
    (hfile : lock'.file = lock.file) (hreleased : lock.released = true → lock'.released = true)
    (hx : ∀ c record, x ≠ .renewClosing c record) (hw : ∀ c g record, x ≠ .renewWriting c g record)
    (hlease : lock'.released = false →
      lock.released = false ∧ Lease s c lock.file lock'.leaseExpiresAt)
    (hknown : ∀ s', s'.client c = .locked lock' → TaskKnown options s' x) :
    Inv options ((s.setClient c (.locked lock')).setTask t x) := by
  refine h.quiet rfl (later_setLocked hc hfile hreleased) (fun c' g e hle ↦ ?_)
    (fun w c' g record hw' ↦ writing_setClient (by simp) (writing_setTask hw hw')) (fun c' ↦ ?_)
    fun t' ↦ ?_
  · have hbefore := lease_setTask hx hle
    cases hbefore with
    | closing hc' =>
      by_cases hcc : c' = c
      · subst hcc
        rw [client_setClient] at hc'
        cases hc'
      · exact .closing (by rwa [client_setClient_of_ne hcc] at hc')
    | held hc' hreleased' =>
      by_cases hcc : c' = c
      · subst hcc
        rw [client_setClient] at hc'
        cases hc'
        rw [hfile]
        exact (hlease hreleased').2
      · exact .held (by rwa [client_setClient_of_ne hcc] at hc') hreleased'
    | renewed ht hc' hreleased' =>
      by_cases hcc : c' = c
      · subst hcc
        rw [client_setClient] at hc'
        cases hc'
        rw [hfile]
        exact .renewed ht hc (hlease hreleased').1
      · exact .renewed ht (by rwa [client_setClient_of_ne hcc] at hc') hreleased'
  · by_cases hcc : c' = c
    · right
      have hclient := h.client c
      rw [hc] at hclient
      subst hcc
      change ClientKnown _ c' ((s.setClient c' (.locked lock')).client c')
      rw [client_setClient]
      rw [ClientKnown, hfile]
      exact hclient
    · exact .inl (client_setClient_of_ne hcc _)
  · by_cases htt : t' = t
    · right
      rw [htt, task_setTask]
      exact hknown _ (client_setClient c _)
    · exact .inl (task_setTask_of_ne htt _)

/-- A release removes the file of its client, which nobody has a lease on any more. -/
theorem Inv.releaseRemove {t c : ℕ} {seen : Found} (ht : s.task t = .releaseRemoving c seen)
    (hcareful : s.file.here = none ∨ s.file.read = some seen) :
    Inv options ((s.setFile s.file.unlink).setTask t (.done none)) := by
  have hknown := h.task t
  rw [ht] at hknown
  obtain ⟨lock, r, hc, hreleased, rfl⟩ := hknown
  have hcreator : s.file.creator lock.file = some c := by
    have hclient := h.client c
    rw [hc] at hclient
    exact hclient.1
  have hfile : ∀ g, s.file.here = some g → g = lock.file ∧ s.file.content g = some r := by
    intro g hg
    rcases hcareful with hnone | hread
    · rw [hnone] at hg
      cases hg
    · obtain ⟨hhere, hcontent⟩ := Slot.read_eq_some_iff.mp hread
      obtain rfl : lock.file = g := Option.some.inj (hhere.symm.trans hg)
      exact ⟨rfl, hcontent⟩
  have hended : ∀ c' g e, Lease s c' g e → e ≤ s.now := by
    intro c' g e hle
    rcases h.backed c' g e hle with hended | ⟨hhere, hcreator', -⟩
    · exact hended
    · -- a lease on this file would be of its client, which has released it
      obtain rfl := (hfile g hhere).1
      obtain rfl : c = c' := Option.some.inj (hcreator.symm.trans hcreator')
      exact absurd hle (not_lease_of_released hc hreleased)
  have hnone := h.not_writing fun g hg ↦ by
    rw [(hfile g hg).2]
    simp
  refine h.unlinked ⟨le_rfl, le_rfl, fun _ _ ↦ rfl, fun _ lock hlock ↦ ⟨lock, hlock, rfl, id⟩⟩ rfl
    (fun w c' g record hw ↦ hnone w c' g record
      (writing_setFile (writing_setTask (x := .done none) (by simp) hw)))
    (fun c' g e hle ↦ hended c' g e (lease_setFile (lease_setTask (x := .done none) (by simp) hle)))
    (fun _ ↦ .inl rfl) fun t' ↦ ?_
  by_cases htt : t' = t
  · right
    rw [htt, task_setTask]
    trivial
  · exact .inl (task_setTask_of_ne htt _)

/-- What a client reads as its own is the file of its lock. -/
theorem Inv.readsItsOwn {c g : ℕ} {r : LockRecord} {lock : FileLock}
    (hc : s.client c = .locked lock) (hcareful : ReadsItsOwn options s c) (hread : s.file.read = some (g, some r))
    (hholder : r.holder = (options c).holder) : lock.file = g ∧ Timely options s c r := by
  obtain rfl : lock.file = g := hcareful g r hread hholder lock hc
  have hclient := h.client c
  rw [hc] at hclient
  exact ⟨rfl, h.written lock.file c r (Slot.read_eq_some_iff.mp hread).2 hclient.1⟩

/-- **A careful step of `renew` or `release`** keeps the invariant. -/
theorem Inv.step {t : ℕ} (hcareful : Careful options (.step t) s) :
    Inv options (step lockPath options t s) := by
  rw [Memory.step]
  rw [Careful] at hcareful
  have hknown := h.task t
  rcases ht : s.task t with thrown | c | ⟨c, seen, record⟩ | ⟨c, fd, record⟩ | ⟨c, record⟩ | c |
    ⟨c, seen⟩
  all_goals simp only [ht] at hcareful hknown ⊢
  · exact h
  · obtain ⟨lock, hc⟩ := hknown
    rcases hread : s.file.read with - | ⟨g, - | r⟩
    · exact h.setTask (by simp) (by simp) trivial
    · exact h.setTask (by simp) (by simp) trivial
    by_cases hholder : r.holder = (options c).holder
    · simp only [hholder, ne_eq, not_true_eq_false, if_false]
      obtain ⟨rfl, htimely⟩ := h.readsItsOwn hc hcareful hread hholder
      exact h.setTask (by simp) (by simp) ⟨lock, r, hc, rfl, htimely, le_rfl⟩
    · simp only [ne_eq, hholder, not_false_eq_true, if_true]
      exact h.setTask (by simp) (by simp) trivial
  · exact h.renewOpen ht hcareful
  · exact h.renewWrite ht
  · obtain ⟨lock, hc⟩ := hknown
    simp only [hc]
    exact h.setLocked hc rfl id (by simp) (by simp)
      (fun hreleased ↦ ⟨hreleased, .renewed ht hc hreleased⟩) fun _ _ ↦ trivial
  · obtain ⟨lock, hc, hreleased⟩ := hknown
    rcases hread : s.file.read with - | ⟨g, - | r⟩
    · exact h.setTask (by simp) (by simp) trivial
    · exact h.setTask (by simp) (by simp) trivial
    by_cases hholder : r.holder = (options c).holder
    · simp only [hholder, if_true]
      obtain ⟨rfl, -⟩ := h.readsItsOwn hc hcareful hread hholder
      exact h.setTask (by simp) (by simp) ⟨lock, r, hc, hreleased, rfl⟩
    · simp only [hholder, if_false]
      exact h.setTask (by simp) (by simp) trivial
  · exact h.releaseRemove ht hcareful

/-- A careful move touches the file of its own client only. -/
theorem Inv.ownFile {m : LockMove} (hcareful : Careful options m s) : OwnFile m s := by
  cases m with
  | step t =>
    rw [OwnFile]
    rw [Careful] at hcareful
    have hknown := h.task t
    rcases ht : s.task t with thrown | c | ⟨c, seen, record⟩ | ⟨c, fd, record⟩ | ⟨c, record⟩ | c |
      ⟨c, seen⟩
    all_goals simp only [ht] at hcareful hknown ⊢
    · obtain ⟨hhere, -, hcreator, -⟩ := h.writing _ _ _ _ (.task ht)
      exact ⟨hhere, hcreator⟩
    · obtain ⟨lock, r, hc, -, rfl⟩ := hknown
      have hclient := h.client c
      rw [hc] at hclient
      intro g hg
      rcases hcareful with hnone | hread
      · rw [hnone] at hg
        cases hg
      · obtain rfl : lock.file = g :=
          Option.some.inj ((Slot.read_eq_some_iff.mp hread).1.symm.trans hg)
        exact hclient.1
  | _ => trivial

/-- **A careful move** keeps the invariant. -/
theorem Inv.move {m : LockMove} (hcareful : Careful options m s) :
    Inv options (move lockPath options m s) := by
  cases m with
  | acquire c =>
    rw [Memory.move]
    rcases hc : s.client c
    case idle => exact h.setClient trivial (by simp) (by simp [hc]) trivial
    all_goals exact h
  | advance c => exact h.advance lockPath hcareful
  | renew t c =>
    rw [Memory.move]
    rcases ht : s.task t
    case done =>
      rcases hc : s.client c
      case locked lock =>
        simp only
        split_ifs with hreleased
        · exact h.setTask (by simp) (by simp) trivial
        · exact h.setTask (by simp) (by simp) ⟨lock, hc⟩
      all_goals exact h
    all_goals exact h
  | release t c =>
    rw [Memory.move]
    rcases ht : s.task t
    case done =>
      rcases hc : s.client c
      case locked lock =>
        simp only
        split_ifs with hreleased
        · exact h.setTask (by simp) (by simp) trivial
        · exact h.setLocked hc rfl (fun _ ↦ rfl) (by simp) (by simp) (fun hfalse ↦ by cases hfalse)
            fun _ hc' ↦ ⟨_, hc', rfl⟩
      all_goals exact h
    all_goals exact h
  | step t => exact h.step lockPath hcareful
  | tick ms =>
    exact h.quiet rfl ⟨Nat.le_add_right _ _, le_rfl, fun _ _ ↦ rfl,
        fun _ lock hlock ↦ ⟨lock, hlock, rfl, id⟩⟩
      (fun _ _ _ hle ↦ by
        cases hle with
        | closing hc => exact .closing hc
        | held hc hreleased => exact .held hc hreleased
        | renewed ht hc hreleased => exact .renewed ht hc hreleased)
      (fun _ _ _ _ hw ↦ by
        cases hw with
        | client hc => exact .client hc
        | task ht => exact .task ht)
      (fun _ ↦ .inl rfl) fun _ ↦ .inl rfl

end Step

theorem Started.inv {s : LockState} (h : Started s) : Inv options s where
  backed c g e hle := by
    cases hle with
    | closing hc => rw [h.idle c] at hc; cases hc
    | held hc _ => rw [h.idle c] at hc; cases hc
    | renewed _ hc _ => rw [h.idle c] at hc; cases hc
  writing w c g record hw := by
    cases hw with
    | client hc => rw [h.idle c] at hc; cases hc
    | @task t _ _ _ ht => rw [h.done t] at ht; cases ht
  sole w w' c c' g g' record record' hw := by
    cases hw with
    | client hc => rw [h.idle c] at hc; cases hc
    | @task t _ _ _ ht => rw [h.done t] at ht; cases ht
  written g c record _ hc := by
    rw [h.creator g] at hc
    cases hc
  client c := by
    rw [h.idle c]
    trivial
  task t := by
    rw [h.done t]
    trivial

/-- **The lock is exclusive along every careful run**: at most one client that has acquired and not
released has a lease that runs, a renewal succeeds only for the client that has created the lock
file, and no release removes a file that another has created. -/
theorem fileLock_exclusive_of_careful (options : ℕ → AcquireOptions) (ms : List LockMove) (s : LockState)
    (hstart : Started s) (h : Run.Along (move lockPath options) (Careful options) ms s) :
    Exclusive (Run.run (move lockPath options) ms s) ∧
      Run.Along (move lockPath options) OwnFile ms s := by
  have hmove : ∀ m s, Inv options s → Careful options m s →
      Inv options (move lockPath options m s) :=
    fun _ _ hs hcareful ↦ hs.move lockPath hcareful
  exact ⟨(h.run hmove hstart.inv).exclusive,
    h.imp hmove (fun _ _ hs hcareful ↦ hs.ownFile hcareful) hstart.inv⟩

/-! ### Two clients of one name -/

private def storeOptions : ℕ → AcquireOptions := fun _ ↦ { holder := "memory-store" }

private def noFile : LockState where
  file :=
    { here := none
      next := 0
      content := fun _ ↦ none
      creator := fun _ ↦ none
      here_lt := fun g hg ↦ by cases hg
      fresh := fun _ _ ↦ rfl }
  now := 0
  client _ := .idle
  task _ := .done none

private theorem started_noFile : Started noFile := ⟨fun _ ↦ rfl, fun _ ↦ rfl, fun _ ↦ rfl⟩

/-- A client takes the lock, renews it and releases it. -/
private def oneClient : List LockMove :=
  [.acquire 1, .advance 1, .advance 1, .advance 1, .advance 1, .renew 0 1, .step 0, .step 0,
    .step 0, .step 0, .release 0 1, .step 0, .step 0]

theorem fileLock_exclusive_oneClient :
    Exclusive (Run.run (move "m.md.lock" storeOptions) oneClient noFile) ∧
      Run.Along (move "m.md.lock" storeOptions) OwnFile oneClient noFile :=
  fileLock_exclusive_of_careful "m.md.lock" storeOptions oneClient noFile started_noFile
    (And.intro trivial <| And.intro trivial <| And.intro trivial <| And.intro trivial <|
      And.intro trivial <| And.intro trivial <|
      And.intro (fun _ _ hread _ _ hc ↦ by cases hread; cases hc; rfl) <|
      And.intro rfl <| And.intro trivial <| And.intro trivial <| And.intro trivial <|
      And.intro (fun _ _ hread _ _ hc ↦ by cases hread; cases hc; rfl) <|
      And.intro (.inr rfl) trivial)

/-- The first client has created the file and has not written into it when the second reads it,
finds that it says nothing, and removes it. -/
private def emptyFile : List LockMove :=
  [.acquire 1, .advance 1, .advance 1, .acquire 2, .advance 2, .advance 2, .advance 2, .advance 2,
    .advance 2, .advance 2, .advance 2, .advance 1, .advance 1]

/-- **Both clients have the lock.** -/
theorem not_exclusive_emptyFile :
    Started noFile ∧ ¬Exclusive (Run.run (move "m.md.lock" storeOptions) emptyFile noFile) := by
  refine ⟨started_noFile, fun h ↦ ?_⟩
  have h1 : Holds (Run.run (move "m.md.lock" storeOptions) emptyFile noFile) 1 :=
    ⟨⟨0, 300000, false⟩, by decide, rfl, by decide⟩
  have h2 : Holds (Run.run (move "m.md.lock" storeOptions) emptyFile noFile) 2 :=
    ⟨⟨1, 300000, false⟩, by decide, rfl, by decide⟩
  exact absurd (h 1 2 h1 h2) (by decide)

end QwenHarness.Memory
