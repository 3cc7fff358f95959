import QwenHarness.Runtime.Drive

/-!
# What the records say about a side effect

For each side effect the records hold a history: its intent, its start, its execution, its
settlement. A turn should leave no side effect started and unsettled. It does so exactly when
nothing interrupts it while one is: an interruption is a signal seen aborted, a budget that stops
the turn, or anything thrown.

On the serial path only the execution itself stands between a start and its settlement. In a
parallel batch the gates of the later calls and the hooks after the earlier results do as well, and
each of them may interrupt.
-/

namespace QwenHarness

open Effect

inductive SideEffectStep where
  | intent
  | started
  | executed
  | settled
deriving DecidableEq, Repr

namespace Obs

/-- The step a record is of which side effect, if any. An append that threw appended nothing. -/
def sideEffectStep : Obs → Option (String × SideEffectStep)
  | .append input (.ok ()) =>
    match input.payload with
    | .sideEffectIntent intent => some (intent.sideEffectId, .intent)
    | .sideEffectStarted sideEffectId => some (sideEffectId, .started)
    | .sideEffectSettled sideEffectId _ _ => some (sideEffectId, .settled)
    | _ => none
  | .execute sideEffectId _ _ => some (sideEffectId, .executed)
  | _ => none

/-- Whether the record interrupts the turn. -/
def interrupts : Obs → Bool
  | .signal aborted => aborted
  | .append _ answer => !answer.isOk
  | .preToolUse _ answer => !answer.isOk
  | .evaluate _ answer => !answer.isOk
  | .requestApproval _ answer => !answer.isOk
  | .lifecycle _ answer => !answer.isOk
  | .intentFor _ answer => !answer.isOk
  | .execute _ _ answer => !answer.isOk
  | .postToolUse _ answer => !answer.isOk
  | .planBatches _ answer => !answer.isOk
  | .prepare _ answer => !answer.isOk
  | .stream _ answer => !answer.isOk
  | .sleep _ answer => !answer.isOk
  | .budgetStop _ => true
  | .mayExecute _ _ | .takeUp _ | .takeUpBatch _ | .moved _ | .said _ | .adopted _ => false

/-- An append or an execution that threw. -/
def threw : Obs → Bool
  | .append _ answer => !answer.isOk
  | .execute _ _ answer => !answer.isOk
  | _ => false

end Obs

/-- The steps of one side effect, in the order of the records. -/
def sideEffectHistory (sideEffectId : String) (obs : List Obs) : List SideEffectStep :=
  obs.filterMap fun o ↦ o.sideEffectStep.bind fun x ↦ if x.1 = sideEffectId then some x.2 else none

/-- Started and not settled. -/
def IsOpen (obs : List Obs) (sideEffectId : String) : Prop :=
  .started ∈ sideEffectHistory sideEffectId obs ∧ .settled ∉ sideEffectHistory sideEffectId obs

/-- Every start is preceded by exactly one intent and followed by exactly one settlement, and what
was started was executed exactly once. -/
def EachSettled (obs : List Obs) : Prop :=
  ∀ sideEffectId before after,
    sideEffectHistory sideEffectId obs = before ++ .started :: after →
      before.count .intent = 1 ∧ after.count .settled = 1 ∧
        (before ++ after).count .executed = 1

/-- No interruption finds a side effect open. -/
def Uninterrupted (obs : List Obs) : Prop :=
  ∀ (i : ℕ) (o : Obs), obs[i]? = some o → o.interrupts = true →
    ∀ sideEffectId, ¬IsOpen (obs.take i) sideEffectId

/-! ## Adding a record -/

section Records

variable {obs : List Obs} {o : Obs} {sideEffectId : String}

theorem sideEffectHistory_concat :
    sideEffectHistory sideEffectId (obs ++ [o]) = sideEffectHistory sideEffectId obs ++
      (o.sideEffectStep.bind fun x ↦ if x.1 = sideEffectId then some x.2 else none).toList := by
  rw [sideEffectHistory, List.filterMap_append, ← sideEffectHistory]
  cases h : (o.sideEffectStep.bind fun x ↦ if x.1 = sideEffectId then some x.2 else none) <;>
    simp [h]

theorem sideEffectHistory_concat_of_none (ho : o.sideEffectStep = none) :
    sideEffectHistory sideEffectId (obs ++ [o]) = sideEffectHistory sideEffectId obs := by
  rw [sideEffectHistory_concat, ho]
  exact List.append_nil _

theorem sideEffectHistory_concat_self {step : SideEffectStep}
    (ho : o.sideEffectStep = some (sideEffectId, step)) :
    sideEffectHistory sideEffectId (obs ++ [o]) =
      sideEffectHistory sideEffectId obs ++ [step] := by
  rw [sideEffectHistory_concat, ho]
  simp

theorem sideEffectHistory_concat_other {other : String} {step : SideEffectStep}
    (ho : o.sideEffectStep = some (other, step)) (hne : sideEffectId ≠ other) :
    sideEffectHistory sideEffectId (obs ++ [o]) = sideEffectHistory sideEffectId obs := by
  rw [sideEffectHistory_concat, ho]
  simp [hne.symm]

theorem Uninterrupted.of_append {seg : List Obs} (h : Uninterrupted (obs ++ seg)) :
    Uninterrupted obs := by
  intro i o hi
  have hlt : i < obs.length := (List.getElem?_eq_some_iff.mp hi).1
  have hi' := h i o (by rwa [List.getElem?_append_left hlt])
  rwa [List.take_append_of_le_length hlt.le] at hi'

theorem uninterrupted_concat :
    Uninterrupted (obs ++ [o]) ↔ Uninterrupted obs ∧
      (o.interrupts = true → ∀ sideEffectId, ¬IsOpen obs sideEffectId) := by
  constructor
  · intro h
    refine ⟨h.of_append, fun ho ↦ ?_⟩
    have hlast := h obs.length o (by simp) ho
    rwa [List.take_left] at hlast
  · rintro ⟨hobs, ho⟩ i o' hi
    by_cases hlt : i < obs.length
    · rw [List.getElem?_append_left hlt] at hi
      rw [List.take_append_of_le_length hlt.le]
      exact hobs i o' hi
    · have hlen := (List.getElem?_eq_some_iff.mp hi).1
      rw [List.length_append, List.length_singleton] at hlen
      obtain rfl : i = obs.length := by omega
      rw [List.getElem?_append_right le_rfl, Nat.sub_self] at hi
      obtain rfl : o = o' := by simpa using hi
      rwa [List.take_left]

theorem sideEffectHistory_append_of_none {seg : List Obs}
    (hseg : ∀ o ∈ seg, o.sideEffectStep = none) :
    sideEffectHistory sideEffectId (obs ++ seg) = sideEffectHistory sideEffectId obs := by
  have hnil : seg.filterMap (fun o ↦ o.sideEffectStep.bind fun x ↦
      if x.1 = sideEffectId then some x.2 else none) = [] :=
    List.filterMap_eq_nil_iff.mpr fun o ho ↦ by rw [hseg o ho]; rfl
  rw [sideEffectHistory, List.filterMap_append, hnil, List.append_nil, sideEffectHistory]

end Records

/-! ## The books -/

/-- The histories of side effects that are not open. -/
def closedHistories : List (List SideEffectStep) :=
  [[], [.intent], [.intent, .settled], [.intent, .started, .executed, .settled]]

/-- The side effects that are open have the histories the books give, and no others are open. A
side effect with a history at all has an identifier that was drawn. -/
structure Books (ids : ℕ → String) (books : List (String × List SideEffectStep)) (drawn : ℕ)
    (obs : List Obs) : Prop where
  nodup : (books.map Prod.fst).Nodup
  live : ∀ x ∈ books, .started ∈ x.2 ∧ .settled ∉ x.2
  opened : ∀ x ∈ books, sideEffectHistory x.1 obs = x.2
  closed : ∀ sideEffectId ∉ books.map Prod.fst,
    sideEffectHistory sideEffectId obs ∈ closedHistories
  drawn : ∀ sideEffectId, sideEffectHistory sideEffectId obs ≠ [] →
    ∃ n < drawn, sideEffectId = ids n

namespace Books

variable {ids : ℕ → String} {books : List (String × List SideEffectStep)} {drawn drawn' : ℕ}
  {obs : List Obs} {o : Obs} {sideEffectId : String}

theorem isOpen_iff (h : Books ids books drawn obs) :
    IsOpen obs sideEffectId ↔ sideEffectId ∈ books.map Prod.fst := by
  constructor
  · rintro ⟨hs, hns⟩
    by_contra hmem
    have hclosed := h.closed sideEffectId hmem
    rw [closedHistories] at hclosed
    generalize sideEffectHistory sideEffectId obs = history at hs hns hclosed
    simp only [List.mem_cons, List.not_mem_nil, or_false] at hclosed
    rcases hclosed with rfl | rfl | rfl | rfl <;> simp at hs hns
  · intro hmem
    obtain ⟨x, hx, rfl⟩ := List.mem_map.mp hmem
    rw [IsOpen, h.opened x hx]
    exact h.live x hx

theorem not_mem_of_history (h : Books ids books drawn obs)
    (hs : .started ∉ sideEffectHistory sideEffectId obs) : sideEffectId ∉ books.map Prod.fst :=
  fun hmem ↦ hs (h.isOpen_iff.mpr hmem).1

theorem mono (h : Books ids books drawn obs) (hd : drawn ≤ drawn') :
    Books ids books drawn' obs :=
  { h with drawn := fun id hid ↦ (h.drawn id hid).imp fun _ hn ↦ ⟨hn.1.trans_le hd, hn.2⟩ }

/-- A record that is about no side effect. -/
theorem concat_none (h : Books ids books drawn obs) (ho : o.sideEffectStep = none) :
    Books ids books drawn (obs ++ [o]) := by
  have heq : ∀ id, sideEffectHistory id (obs ++ [o]) = sideEffectHistory id obs :=
    fun _ ↦ sideEffectHistory_concat_of_none ho
  exact ⟨h.nodup, h.live, fun x hx ↦ (heq _).trans (h.opened x hx), fun id hid ↦ heq id ▸ h.closed id hid,
    fun id hid ↦ h.drawn id (heq id ▸ hid)⟩

/-- A step of a side effect that is not open before or after. -/
theorem concat_closed (h : Books ids books drawn obs) {step : SideEffectStep}
    (ho : o.sideEffectStep = some (sideEffectId, step))
    (hmem : sideEffectId ∉ books.map Prod.fst)
    (hclosed : sideEffectHistory sideEffectId obs ++ [step] ∈ closedHistories)
    (hdrawn : ∃ n < drawn, sideEffectId = ids n) : Books ids books drawn (obs ++ [o]) := by
  refine ⟨h.nodup, h.live, fun x hx ↦ ?_, fun id hid ↦ ?_, fun id hid ↦ ?_⟩
  · rw [sideEffectHistory_concat_other ho fun heq ↦ hmem (heq ▸ List.mem_map_of_mem hx)]
    exact h.opened x hx
  · by_cases heq : id = sideEffectId
    · subst heq
      rwa [sideEffectHistory_concat_self ho]
    · rw [sideEffectHistory_concat_other ho heq]
      exact h.closed id hid
  · by_cases heq : id = sideEffectId
    · exact heq ▸ hdrawn
    · rw [sideEffectHistory_concat_other ho heq] at hid
      exact h.drawn id hid

/-- A side effect that becomes open. -/
theorem concat_start (h : Books ids books drawn obs)
    (ho : o.sideEffectStep = some (sideEffectId, .started))
    (hhist : sideEffectHistory sideEffectId obs = [.intent]) :
    Books ids (books ++ [(sideEffectId, [.intent, .started])]) drawn (obs ++ [o]) := by
  have hmem : sideEffectId ∉ books.map Prod.fst := h.not_mem_of_history (by rw [hhist]; decide)
  have hother : ∀ {id}, id ≠ sideEffectId →
      sideEffectHistory id (obs ++ [o]) = sideEffectHistory id obs :=
    fun hne ↦ sideEffectHistory_concat_other ho hne
  refine ⟨?_, fun x hx ↦ ?_, fun x hx ↦ ?_, fun id hid ↦ ?_, fun id hid ↦ ?_⟩
  · rw [List.map_append, List.nodup_append]
    refine ⟨h.nodup, List.nodup_singleton _, fun a ha b hb ↦ ?_⟩
    rw [List.map_singleton, List.mem_singleton] at hb
    rintro rfl
    rw [hb] at ha
    exact hmem ha
  · rcases List.mem_append.mp hx with hx | hx
    · exact h.live x hx
    · rw [List.mem_singleton.mp hx]
      simp
  · rcases List.mem_append.mp hx with hx | hx
    · rw [hother fun heq ↦ hmem (heq ▸ List.mem_map_of_mem hx)]
      exact h.opened x hx
    · rw [List.mem_singleton.mp hx, sideEffectHistory_concat_self ho, hhist]
      rfl
  · rw [List.map_append, List.mem_append, not_or] at hid
    rw [hother fun heq ↦ hid.2 (by simp [heq])]
    exact h.closed id hid.1
  · by_cases heq : id = sideEffectId
    · exact heq ▸ h.drawn sideEffectId (by rw [hhist]; decide)
    · rw [hother heq] at hid
      exact h.drawn id hid

/-- An open side effect that stays open. -/
theorem concat_execute {before after : List (String × List SideEffectStep)}
    (h : Books ids (before ++ (sideEffectId, [.intent, .started]) :: after) drawn obs)
    (ho : o.sideEffectStep = some (sideEffectId, .executed)) :
    Books ids (before ++ (sideEffectId, [.intent, .started, .executed]) :: after) drawn
      (obs ++ [o]) := by
  have hfst : (before ++ (sideEffectId, [SideEffectStep.intent, .started, .executed]) :: after).map
      Prod.fst = (before ++ (sideEffectId, [.intent, .started]) :: after).map Prod.fst := by simp
  have hself := h.opened (sideEffectId, [.intent, .started]) (by simp)
  have hnodup := h.nodup
  rw [List.map_append, List.map_cons, List.nodup_middle, List.nodup_cons, ← List.map_append]
    at hnodup
  have hother : ∀ x ∈ before ++ after, sideEffectHistory x.1 (obs ++ [o]) = x.2 := fun x hx ↦ by
    have hne : x.1 ≠ sideEffectId := fun heq ↦ hnodup.1 (heq ▸ List.mem_map.mpr ⟨x, hx, rfl⟩)
    rw [sideEffectHistory_concat_other ho hne]
    exact h.opened x (by rw [List.mem_append] at hx ⊢; exact hx.imp_right (List.mem_cons_of_mem _))
  have hmem : ∀ x ∈ before ++ (sideEffectId, [.intent, .started, .executed]) :: after,
      x = (sideEffectId, [.intent, .started, .executed]) ∨ x ∈ before ++ after := by
    intro x hx
    rw [List.mem_append, List.mem_cons] at hx
    rw [List.mem_append]
    tauto
  refine ⟨hfst ▸ h.nodup, fun x hx ↦ ?_, fun x hx ↦ ?_, fun id hid ↦ ?_, fun id hid ↦ ?_⟩
  · rcases hmem x hx with rfl | hx
    · simp
    · exact h.live x (by rw [List.mem_append] at hx ⊢; exact hx.imp_right (List.mem_cons_of_mem _))
  · rcases hmem x hx with rfl | hx
    · rw [sideEffectHistory_concat_self ho, hself]
      rfl
    · exact hother x hx
  · rw [hfst] at hid
    rw [sideEffectHistory_concat_other ho fun heq ↦ hid (by simp [heq])]
    exact h.closed id hid
  · by_cases heq : id = sideEffectId
    · exact heq ▸ h.drawn sideEffectId (by simp [hself])
    · rw [sideEffectHistory_concat_other ho heq] at hid
      exact h.drawn id hid

/-- An open side effect that is settled after its execution. -/
theorem concat_settle
    (h : Books ids ((sideEffectId, [.intent, .started, .executed]) :: books) drawn obs)
    (ho : o.sideEffectStep = some (sideEffectId, .settled)) :
    Books ids books drawn (obs ++ [o]) := by
  have hself := h.opened (sideEffectId, [.intent, .started, .executed]) List.mem_cons_self
  have hnodup := h.nodup
  rw [List.map_cons, List.nodup_cons] at hnodup
  refine ⟨hnodup.2, fun x hx ↦ h.live x (List.mem_cons_of_mem _ hx), fun x hx ↦ ?_, fun id hid ↦ ?_,
    fun id hid ↦ ?_⟩
  · have hne : x.1 ≠ sideEffectId := fun heq ↦ hnodup.1 (heq ▸ List.mem_map.mpr ⟨x, hx, rfl⟩)
    rw [sideEffectHistory_concat_other ho hne]
    exact h.opened x (List.mem_cons_of_mem _ hx)
  · by_cases heq : id = sideEffectId
    · rw [heq, sideEffectHistory_concat_self ho, hself]
      simp [closedHistories]
    · rw [sideEffectHistory_concat_other ho heq]
      exact h.closed id fun hmem ↦ (List.mem_cons.mp hmem).elim heq hid
  · by_cases heq : id = sideEffectId
    · exact heq ▸ h.drawn sideEffectId (by simp [hself])
    · rw [sideEffectHistory_concat_other ho heq] at hid
      exact h.drawn id hid

end Books

/-! ## Running and stuck -/

section Running

variable {σ α : Type} {deps : TurnEngineDeps σ} {books : List (String × List SideEffectStep)}

/-- The identifiers side effects draw. -/
def TurnEngineDeps.sideEffectIds (deps : TurnEngineDeps σ) (n : ℕ) : String :=
  deps.ids.next n "sfx"

/-- Nothing was interrupted so far, and these side effects are open. -/
structure Running (deps : TurnEngineDeps σ) (books : List (String × List SideEffectStep))
    (w : World σ) : Prop where
  books : Books deps.sideEffectIds books w.drawn w.obs
  uninterrupted : Uninterrupted w.obs

/-- An interruption found a side effect open, and it still is. -/
structure Stuck (w : World σ) : Prop where
  interrupted : ¬Uninterrupted w.obs
  isOpen : ∃ sideEffectId, IsOpen w.obs sideEffectId

/-- How a turn may stand when it stops. -/
def Halted (deps : TurnEngineDeps σ) (w : World σ) : Prop := Running deps [] w ∨ Stuck w

namespace Running

variable {w w' : World σ} {o : Obs}

/-- A record that neither steps a side effect nor interrupts. -/
theorem quiet (h : Running deps books w) (ha : Adds deps o w w') (ho : o.sideEffectStep = none)
    (hi : o.interrupts = false) : Running deps books w' := by
  refine ⟨?_, ?_⟩
  · rw [ha.obs, ha.drawn]
    exact h.books.concat_none ho
  rw [ha.obs, uninterrupted_concat]
  exact ⟨h.uninterrupted, fun hi' ↦ by rw [hi] at hi'; cases hi'⟩

/-- While nothing is open, an interruption does no harm. -/
theorem calm (h : Running deps [] w) (ha : Adds deps o w w') (ho : o.sideEffectStep = none) :
    Running deps [] w' := by
  refine ⟨?_, ?_⟩
  · rw [ha.obs, ha.drawn]
    exact h.books.concat_none ho
  rw [ha.obs, uninterrupted_concat]
  refine ⟨h.uninterrupted, fun _ id hopen ↦ ?_⟩
  have hmem := h.books.isOpen_iff.mp hopen
  simp at hmem

/-- An interruption halts the turn. -/
theorem halt (h : Running deps books w) (ha : Adds deps o w w') (ho : o.sideEffectStep = none)
    (hi : o.interrupts = true) : Halted deps w' := by
  rcases books with - | ⟨x, books⟩
  · exact .inl (h.calm ha ho)
  · have hopen : ∀ id, IsOpen w'.obs id ↔ IsOpen w.obs id := fun id ↦ by
      rw [IsOpen, IsOpen, ha.obs, sideEffectHistory_concat_of_none ho]
    have hx : IsOpen w.obs x.1 := h.books.isOpen_iff.mpr (by simp)
    refine .inr ⟨?_, x.1, (hopen _).mpr hx⟩
    rw [ha.obs, uninterrupted_concat]
    exact fun hun ↦ hun.2 hi x.1 hx

end Running

/-- The records that are no step of a side effect. -/
def besideKinds : List Kind := [.intent, .started, .settled, .execution]

theorem sideEffectStep_eq_none {o : Obs} (h : o.kind ∉ besideKinds) : o.sideEffectStep = none := by
  rw [Obs.sideEffectStep.eq_def]
  split
  · rename_i input
    split
    · rename_i intent hp
      exact absurd (show (EventPayload.sideEffectIntent intent).kind ∈ besideKinds from
        List.mem_of_elem_eq_true rfl) (hp ▸ h)
    · rename_i id hp
      exact absurd (show (EventPayload.sideEffectStarted id).kind ∈ besideKinds from
        List.mem_of_elem_eq_true rfl) (hp ▸ h)
    · rename_i id state digest hp
      exact absurd (show (EventPayload.sideEffectSettled id state digest).kind ∈ besideKinds from
        List.mem_of_elem_eq_true rfl) (hp ▸ h)
    · rfl
  · exact absurd (List.mem_of_elem_eq_true rfl) h
  · rfl

/-- What is about no side effect does no harm to a turn with nothing open. -/
theorem Running.extend {ks : List Kind} {w w' : World σ} {seg : List Obs} (h : Running deps [] w)
    (hobs : w'.obs = w.obs ++ seg) (hkinds : ∀ o ∈ seg, o.kind ∈ ks) (hd : w.drawn ≤ w'.drawn)
    (hks : ∀ k ∈ ks, k ∉ besideKinds) : Running deps [] w' := by
  have hcalm : ∀ seg : List Obs, (∀ o ∈ seg, o.kind ∈ ks) →
      Books deps.sideEffectIds [] w.drawn (w.obs ++ seg) ∧ Uninterrupted (w.obs ++ seg) := by
    intro seg
    induction seg using List.reverseRecOn with
    | nil => exact fun _ ↦ (List.append_nil w.obs).symm ▸ ⟨h.books, h.uninterrupted⟩
    | append_singleton seg o ih =>
      intro hseg
      rw [List.forall_mem_append] at hseg
      obtain ⟨hbooks, hun⟩ := ih hseg.1
      have ho := sideEffectStep_eq_none (hks _ (hseg.2 o (List.mem_singleton_self o)))
      rw [← List.append_assoc, uninterrupted_concat]
      refine ⟨hbooks.concat_none ho, hun, fun _ id hopen ↦ ?_⟩
      have hmem := hbooks.isOpen_iff.mp hopen
      simp at hmem
  obtain ⟨hbooks, hun⟩ := hcalm seg hkinds
  exact ⟨hobs ▸ hbooks.mono hd, hobs ▸ hun⟩

theorem Running.leaves {ks : List Kind} {w w' : World σ} (h : Running deps [] w)
    (hl : Leaves deps ks w w') (hks : ∀ k ∈ ks, k ∉ besideKinds) : Running deps [] w' := by
  obtain ⟨seg, hobs, hkinds⟩ := hl.obs
  exact h.extend hobs hkinds hl.drawn hks

theorem Stuck.leaves {ks : List Kind} {w w' : World σ} (h : Stuck w) (hl : Leaves deps ks w w')
    (hks : ∀ k ∈ ks, k ∉ besideKinds) : Stuck w' := by
  obtain ⟨seg, hobs, hkinds⟩ := hl.obs
  refine ⟨fun hun ↦ h.interrupted (hobs ▸ hun).of_append, h.isOpen.imp fun id hopen ↦ ?_⟩
  rw [IsOpen, hobs, sideEffectHistory_append_of_none fun o ho ↦
    sideEffectStep_eq_none (hks _ (hkinds o ho))]
  exact hopen

theorem Halted.leaves {ks : List Kind} {w w' : World σ} (h : Halted deps w) (hl : Leaves deps ks w w')
    (hks : ∀ k ∈ ks, k ∉ besideKinds) : Halted deps w' :=
  h.imp (fun h ↦ h.leaves hl hks) fun h ↦ h.leaves hl hks

/-- The only closed history with a start. -/
theorem eq_of_closed {before after : List SideEffectStep}
    (h : before ++ .started :: after ∈ closedHistories) :
    before = [.intent] ∧ after = [.executed, .settled] := by
  simp only [closedHistories, List.mem_cons, List.not_mem_nil, or_false] at h
  rcases before with - | ⟨a, - | ⟨b, - | ⟨c, - | ⟨d, rest⟩⟩⟩⟩ <;> simp_all

theorem Running.eachSettled {w : World σ} (h : Running deps [] w) : EachSettled w.obs := by
  intro id before after hhist
  have hclosed := h.books.closed id (by simp)
  rw [hhist] at hclosed
  obtain ⟨rfl, rfl⟩ := eq_of_closed hclosed
  decide

theorem Stuck.not_eachSettled {w : World σ} (h : Stuck w) : ¬EachSettled w.obs := by
  intro hall
  obtain ⟨id, hstarted, hsettled⟩ := h.isOpen
  obtain ⟨before, after, hhist⟩ := List.append_of_mem hstarted
  have hone := (hall id before after hhist).2.1
  have hnone : after.count .settled = 0 := by
    rw [List.count_eq_zero]
    intro hmem
    rw [hhist] at hsettled
    exact hsettled (by simp [hmem])
  omega

/-- With nothing open, a function that is about no side effect may do what it likes. -/
theorem calm_footprint {ks : List Kind} {m : Engine σ α} (hm : Footprint deps ks m)
    (hks : ∀ k ∈ ks, k ∉ besideKinds) :
    Triple (Running deps []) m (fun _ ↦ Running deps []) fun _ ↦ Halted deps := by
  have hkeeps : Keeps (Running deps []) m := hm.keeps fun hl h ↦ h.leaves hl hks
  exact hkeeps.conseq (fun _ h ↦ h) (fun _ _ h ↦ h) fun _ _ h ↦ .inl h

/-- A call to the outside that is no step of a side effect. Only a throw of it interrupts. -/
theorem running_ask {obs : Except Thrown α → Obs} {call : Call σ α}
    (hcall : ∀ s, Answers deps s (obs (call s).1) (call s).2)
    (hstep : ∀ answer, (obs answer).sideEffectStep = none)
    (hok : ∀ a, (obs (.ok a)).interrupts = false)
    (herror : ∀ e, (obs (.error e)).interrupts = true) :
    Triple (Running deps books) (ask obs call) (fun _ ↦ Running deps books)
      fun _ ↦ Halted deps :=
  ask_rule hcall (fun a hw ha ↦ hw.quiet ha (hstep _) (hok a))
    fun e hw ha ↦ hw.halt ha (hstep _) (herror e)

theorem running_say {items : List ModelInputItem} :
    Triple (Running deps books) (say (σ := σ) items) (fun _ ↦ Running deps books)
      fun _ ↦ Halted deps :=
  say_rule fun hw ha ↦ hw.quiet ha rfl rfl

theorem running_read {call : σ → α × σ} :
    Triple (Running deps books) (read call) (fun _ ↦ Running deps books) fun _ ↦ Halted deps :=
  fun _ hw ↦ ⟨hw.books, hw.uninterrupted⟩

theorem running_draw {kind : String} :
    Triple (Running deps books) (draw deps kind) (fun _ ↦ Running deps books)
      fun _ ↦ Halted deps :=
  fun _ hw ↦ ⟨hw.books.mono (Nat.le_succ _), hw.uninterrupted⟩

theorem running_useBudget {f : BudgetTracker → BudgetVerdict × BudgetTracker} :
    Triple (Running deps books) (useBudget (σ := σ) f) (fun _ ↦ Running deps books)
      fun _ ↦ Halted deps :=
  fun _ hw ↦ ⟨hw.books, hw.uninterrupted⟩

end Running

namespace TurnEngine

variable {σ : Type} {deps : TurnEngineDeps σ} {base : PersistBase}
  {books : List (String × List SideEffectStep)} {call : NormalizedToolCall}

/-- Persisting anything that is no step of a side effect. -/
theorem running_persist {payload : EventPayload} {itemId : Option String}
    (hkind : payload.kind ∉ besideKinds) :
    Triple (Running deps books) (persist deps base payload itemId) (fun _ ↦ Running deps books)
      fun _ ↦ Halted deps :=
  running_ask (fun _ ↦ rfl) (fun _ ↦ sideEffectStep_eq_none hkind) (fun _ ↦ rfl) fun _ ↦ rfl

/-- How taking a call up ends: the turn halts, or it goes on. -/
def TookUp (deps : TurnEngineDeps σ) (books : List (String × List SideEffectStep)) :
    Option ToolPhase → World σ → Prop
  | some phase => Concluded (Running deps []) (Halted deps) phase
  | none => Running deps books

theorem takeUp_running :
    Triple (Running deps books) (takeUp deps call) (TookUp deps books) fun _ ↦ Halted deps := by
  have hsignal : Triple (Running deps books) (signalAborted deps)
      (fun aborted w ↦ if aborted then Halted deps w else Running deps books w)
      fun _ ↦ Halted deps := by
    refine signal_rule fun aborted hw ha ↦ ?_
    cases aborted with
    | true => exact hw.halt ha rfl rfl
    | false => exact hw.quiet ha rfl rfl
  have hstop : ∀ reason, Triple (Running deps books) (do
      note (σ := σ) (.budgetStop reason)
      pure (some (ToolPhase.budget reason))) (TookUp deps books) fun _ ↦ Halted deps :=
    fun reason ↦ .bind (s := fun _ ↦ Halted deps)
      (note_rule (fun _ ↦ rfl) fun hw ha ↦ hw.halt ha rfl rfl) fun _ ↦ .pure fun _ hw ↦ hw
  rw [takeUp]
  refine .bind hsignal fun aborted ↦ ?_
  cases aborted with
  | true => exact .pure fun _ hw ↦ hw
  | false =>
    refine .bind running_useBudget fun verdict ↦ ?_
    cases verdict with
    | some reason => exact hstop reason
    | none =>
      refine .bind running_useBudget fun verdict ↦ ?_
      cases verdict with
      | some reason => exact hstop reason
      | none => exact .pure fun _ hw ↦ hw

theorem preToolUse_running :
    Triple (Running deps books) (preToolUse deps base call) (fun _ ↦ Running deps books)
      fun _ ↦ Halted deps := by
  rw [preToolUse]
  cases hhooks : deps.hooks with
  | none => exact .pure fun _ hw ↦ hw
  | some hooks =>
    refine .bind (running_ask (fun _ ↦ ⟨hooks, hhooks, rfl⟩) (fun _ ↦ rfl) (fun _ ↦ rfl)
      fun _ ↦ rfl) fun gate ↦ ?_
    refine .bind (running_persist (show Kind.hookFired ∉ besideKinds by decide)) fun _ ↦ ?_
    split
    · exact .bind running_say fun _ ↦ .pure fun _ hw ↦ hw
    · exact .pure fun _ hw ↦ hw

/-- How the steps up to the start end: with one more side effect open, or with none. -/
def Begun (deps : TurnEngineDeps σ) (books : List (String × List SideEffectStep)) :
    Option String → World σ → Prop
  | some sideEffectId => Running deps (books ++ [(sideEffectId, [.intent, .started])])
  | none => Running deps books

/-- The side effect that was just drawn has no history. -/
theorem draw_running :
    Triple (Running deps books) (draw deps "sfx") (fun id w ↦ Running deps books w ∧
      sideEffectHistory id w.obs = [] ∧ ∃ n < w.drawn, id = deps.sideEffectIds n)
      fun _ ↦ Halted deps := by
  intro w hw
  refine ⟨⟨hw.books.mono (Nat.le_succ _), hw.uninterrupted⟩, ?_, w.drawn, Nat.lt_succ_self _, rfl⟩
  by_contra hne
  obtain ⟨n, hn, heq⟩ := hw.books.drawn _ hne
  have hfresh := deps.ids.fresh "sfx" heq
  omega

/-- The side effect has its intent and no more. -/
structure Intended (deps : TurnEngineDeps σ) (books : List (String × List SideEffectStep))
    (sideEffectId : String) (w : World σ) : Prop where
  running : Running deps books w
  history : sideEffectHistory sideEffectId w.obs = [.intent]
  drawn : ∃ n < w.drawn, sideEffectId = deps.sideEffectIds n

theorem persistIntent_running {intent : SideEffectIntent} {sideEffectId : String}
    (hid : intent.sideEffectId = sideEffectId) :
    Triple (fun w ↦ Running deps books w ∧ sideEffectHistory sideEffectId w.obs = [] ∧
        ∃ n < w.drawn, sideEffectId = deps.sideEffectIds n)
      (persist deps base (.sideEffectIntent intent))
      (fun _ ↦ Intended deps books sideEffectId) fun _ ↦ Halted deps := by
  subst hid
  refine ask_rule (fun _ ↦ rfl) (fun _ hw ha ↦ ?_) fun e hw ha ↦ hw.1.halt ha rfl rfl
  obtain ⟨hw, hhist, hdrawn⟩ := hw
  refine ⟨⟨?_, ?_⟩, ?_, ha.drawn ▸ hdrawn⟩
  · rw [ha.obs, ha.drawn]
    refine hw.books.concat_closed rfl (hw.books.not_mem_of_history ?_) ?_ hdrawn
    · simp [hhist]
    · simp [hhist, closedHistories]
  · rw [ha.obs, uninterrupted_concat]
    exact ⟨hw.uninterrupted, fun h ↦ by cases h⟩
  · rw [ha.obs, sideEffectHistory_concat_self rfl, hhist]
    rfl

/-- A call refused by the guard is settled without a start. -/
theorem persistSkip_running {sideEffectId : String} {state : SideEffectState} :
    Triple (Intended deps books sideEffectId)
      (persist deps base (.sideEffectSettled sideEffectId state none))
      (fun _ ↦ Running deps books) fun _ ↦ Halted deps := by
  refine ask_rule (fun _ ↦ rfl) (fun _ hw ha ↦ ⟨?_, ?_⟩) fun e hw ha ↦ hw.running.halt ha rfl rfl
  · rw [ha.obs, ha.drawn]
    refine hw.running.books.concat_closed rfl (hw.running.books.not_mem_of_history ?_) ?_ hw.drawn
    · simp [hw.history]
    · simp [hw.history, closedHistories]
  · rw [ha.obs, uninterrupted_concat]
    exact ⟨hw.running.uninterrupted, fun h ↦ by cases h⟩

theorem persistStart_running {sideEffectId : String} :
    Triple (Intended deps books sideEffectId)
      (persist deps base (.sideEffectStarted sideEffectId))
      (fun _ ↦ Running deps (books ++ [(sideEffectId, [.intent, .started])]))
      fun _ ↦ Halted deps := by
  refine ask_rule (fun _ ↦ rfl) (fun _ hw ha ↦ ⟨?_, ?_⟩) fun e hw ha ↦ hw.running.halt ha rfl rfl
  · rw [ha.obs, ha.drawn]
    exact hw.running.books.concat_start rfl hw.history
  · rw [ha.obs, uninterrupted_concat]
    exact ⟨hw.running.uninterrupted, fun h ↦ by cases h⟩

theorem beginSideEffect_running :
    Triple (Running deps books) (beginSideEffect deps base call) (Begun deps books)
      fun _ ↦ Halted deps := by
  rw [beginSideEffect]
  refine .bind (running_ask (fun _ ↦ rfl) (fun _ ↦ rfl) (fun _ ↦ rfl) fun _ ↦ rfl)
    fun intent ↦ ?_
  refine .bind draw_running fun sideEffectId ↦ ?_
  refine .bind (persistIntent_running rfl) fun _ ↦ ?_
  refine .bind (s := fun _ ↦ Intended deps books sideEffectId)
    (mayExecute_rule fun may hw _ _ ha ↦ ?_) fun may ↦ ?_
  · refine ⟨hw.running.quiet ha rfl rfl, ?_, ha.drawn ▸ hw.drawn⟩
    rw [ha.obs, sideEffectHistory_concat_of_none rfl]
    exact hw.history
  · split
    · exact .bind persistStart_running fun _ ↦ .pure fun _ hw ↦ hw
    · exact .bind persistSkip_running fun _ ↦ .bind running_say fun _ ↦ .pure fun _ hw ↦ hw

/-! ## After the start -/

/-- The books while a batch executes: of these side effects the first ones were executed. -/
def executing (ids : List String) (executed : ℕ) : List (String × List SideEffectStep) :=
  (ids.take executed).map (fun id ↦ (id, [.intent, .started, .executed])) ++
    (ids.drop executed).map fun id ↦ (id, [.intent, .started])

/-- The books while a batch settles. -/
def settling (ids : List String) : List (String × List SideEffectStep) :=
  ids.map fun id ↦ (id, [.intent, .started, .executed])

/-- Where the executions of a batch stand. A throw in one of them is an interruption. -/
structure Executing (deps : TurnEngineDeps σ) (ids : List String)
    (done : List ((NormalizedToolCall × String) × Except Thrown ToolExecutionResult))
    (w : World σ) : Prop where
  books : Books deps.sideEffectIds (executing ids done.length) w.drawn w.obs
  uninterrupted : Uninterrupted w.obs ↔ ∀ x ∈ done, x.2.isOk = true

theorem execute_executing {ids : List String} {x : NormalizedToolCall × String}
    {before : List ((NormalizedToolCall × String) × Except Thrown ToolExecutionResult)}
    {after : List String} (hids : ids.drop before.length = x.2 :: after) :
    Triple (Executing deps ids before) (execute deps x.2 x.1)
      (fun result ↦ Executing deps ids (before ++ [(x, .ok result)]))
      fun e ↦ Executing deps ids (before ++ [(x, .error e)]) := by
  have hstep : ∀ {w w' : World σ} (answer : Except Thrown ToolExecutionResult),
      Executing deps ids before w → Adds deps (.execute x.2 x.1 answer) w w' →
      Executing deps ids (before ++ [(x, answer)]) w' := by
    intro w w' answer hw ha
    have hlt : before.length < ids.length := by
      by_contra hge
      rw [List.drop_eq_nil_of_le (by omega)] at hids
      cases hids
    have hget : ids[before.length] = x.2 := by
      rw [List.drop_eq_getElem_cons hlt] at hids
      exact (List.cons.inj hids).1
    have hbooks := hw.books
    rw [executing, hids, List.map_cons] at hbooks
    have hopen : IsOpen w.obs x.2 := hbooks.isOpen_iff.mpr (by simp)
    refine ⟨?_, ?_⟩
    · have hdrop : ids.drop (before.length + 1) = after := by
        rw [List.drop_eq_getElem_cons hlt] at hids
        exact (List.cons.inj hids).2
      have hafter := hbooks.concat_execute (o := .execute x.2 x.1 answer) rfl
      rw [ha.obs, ha.drawn, executing, List.length_append, List.length_singleton, hdrop,
        List.take_succ_eq_append_getElem hlt, hget, List.map_append, List.append_assoc]
      exact hafter
    · rw [ha.obs, uninterrupted_concat, hw.uninterrupted, List.forall_mem_append]
      have hi : (Obs.execute x.2 x.1 answer).interrupts = !answer.isOk := rfl
      rw [hi, List.forall_mem_singleton]
      cases answer with
      | ok result => simp [Except.isOk, Except.toBool]
      | error e =>
        simp only [Except.isOk, Except.toBool, Bool.not_false, forall_const, Bool.false_eq_true,
          and_false, iff_false, not_and]
        exact fun _ hclosed ↦ hclosed x.2 hopen
  exact ask_rule (fun _ ↦ rfl) (fun result hw ha ↦ hstep (.ok result) hw ha)
    fun e hw ha ↦ hstep (.error e) hw ha

theorem Executing.halted {ids : List String} {w : World σ}
    {done : List ((NormalizedToolCall × String) × Except Thrown ToolExecutionResult)}
    (h : Executing deps ids done w) {x : (NormalizedToolCall × String) × Except Thrown _}
    (hx : x ∈ done) (hok : x.2.isOk = false) (hid : x.1.2 ∈ ids) : Halted deps w := by
  refine .inr ⟨fun hun ↦ ?_, x.1.2, h.books.isOpen_iff.mpr ?_⟩
  · have hx' := h.uninterrupted.mp hun x hx
    rw [hok] at hx'
    cases hx'
  · rw [executing, List.map_append, List.map_map, List.map_map]
    simpa [Function.comp_def, ← List.map_append] using hid

theorem execute_running {sideEffectId : String} :
    Triple (Running deps [(sideEffectId, [.intent, .started])]) (execute deps sideEffectId call)
      (fun _ ↦ Running deps [(sideEffectId, [.intent, .started, .executed])])
      fun _ ↦ Halted deps := by
  have hone : Triple (Executing deps [sideEffectId] []) (execute deps sideEffectId call)
      (fun result ↦ Executing deps [sideEffectId] [((call, sideEffectId), .ok result)])
      fun e ↦ Executing deps [sideEffectId] [((call, sideEffectId), .error e)] :=
    execute_executing (x := (call, sideEffectId)) rfl
  refine hone.conseq (fun w hw ↦ ⟨hw.books, by simp [hw.uninterrupted]⟩) (fun result w hw ↦ ?_)
    fun e w hw ↦ ?_
  · exact ⟨hw.books, hw.uninterrupted.mpr (by simp [Except.isOk, Except.toBool])⟩
  · exact hw.halted (List.mem_singleton_self _) rfl (List.mem_singleton_self _)

theorem executeAll_executing (cleared : List (NormalizedToolCall × String)) :
    Triple (Running deps (executing (cleared.map Prod.snd) 0))
      (runAll (cleared.map fun x ↦ execute deps x.2 x.1))
      (fun results w ↦ results.length = cleared.length ∧
        Running deps (settling (cleared.map Prod.snd)) w) fun _ ↦ Halted deps := by
  have hall := Triple.runAll (l := cleared) (f := fun x ↦ execute deps x.2 x.1)
    (d := Executing deps (cleared.map Prod.snd)) fun before x after h ↦
      execute_executing (show (cleared.map Prod.snd).drop before.length =
        x.2 :: after.map Prod.snd by simp [← h])
  refine hall.conseq (fun w hw ↦ ⟨hw.books, by simp [hw.uninterrupted]⟩) (fun results w hw ↦ ?_)
    fun e w hw ↦ ?_
  · obtain ⟨hlen, hdone⟩ := hw
    refine ⟨hlen, ?_, hdone.uninterrupted.mpr fun x hx ↦ ?_⟩
    · have hbooks := hdone.books
      rw [executing, List.length_zip, List.length_map, hlen, Nat.min_self] at hbooks
      rw [List.drop_eq_nil_of_le (by simp), List.take_of_length_le (by simp), List.map_nil,
        List.append_nil] at hbooks
      exact hbooks
    · obtain ⟨r, -, hr⟩ := List.mem_map.mp (List.of_mem_zip hx).2
      rw [← hr]
      rfl
  · obtain ⟨rest, hfst, ⟨x, hx, hok⟩, hdone⟩ := hw
    refine hdone.halted hx hok ?_
    rw [← hfst]
    exact List.mem_map_of_mem (List.mem_map_of_mem hx)

theorem settle_running {sideEffectId : String} {result : ToolExecutionResult} :
    Triple (Running deps ((sideEffectId, [.intent, .started, .executed]) :: books))
      (settle deps base sideEffectId result) (fun _ ↦ Running deps books) fun _ ↦ Halted deps := by
  refine ask_rule (fun _ ↦ rfl) (fun _ hw ha ↦ ⟨?_, ?_⟩) fun e hw ha ↦ hw.halt ha rfl rfl
  · rw [ha.obs, ha.drawn]
    exact hw.books.concat_settle rfl
  · rw [ha.obs, uninterrupted_concat]
    exact ⟨hw.uninterrupted, fun h ↦ by cases h⟩

theorem recordResult_running {result : ToolExecutionResult} :
    Triple (Running deps books) (recordResult deps base call result) (fun _ ↦ Running deps books)
      fun _ ↦ Halted deps := by
  have hpost : Triple (Running deps books) (postToolUse deps base call result)
      (fun _ ↦ Running deps books) fun _ ↦ Halted deps := by
    rw [postToolUse]
    cases hhooks : deps.hooks with
    | none => exact .pure fun _ hw ↦ hw
    | some hooks =>
      refine .bind (running_ask (fun _ ↦ ⟨hooks, result.ok, hhooks, rfl⟩) (fun _ ↦ rfl)
        (fun _ ↦ rfl) fun _ ↦ rfl) fun stop ↦ ?_
      exact .bind (running_persist (show Kind.hookFired ∉ besideKinds by decide)) fun _ ↦
        .pure fun _ hw ↦ hw
  rw [recordResult]
  refine .bind hpost fun stop ↦ .bind (s := fun _ ↦ Running deps books) ?_ fun _ ↦ ?_
  · refine .bind running_draw fun id ↦ .bind running_read fun now ↦ ?_
    exact running_persist (show Kind.resultItem ∉ besideKinds by decide)
  · exact .bind running_say fun _ ↦ .pure fun _ hw ↦ hw

theorem settleBatch_running
    (items : List ((NormalizedToolCall × String) × ToolExecutionResult)) :
    Triple (Running deps (settling (items.map fun x ↦ x.1.2))) (settleBatch deps base items)
      (fun _ ↦ Running deps []) fun _ ↦ Halted deps := by
  induction items with
  | nil => exact .pure fun _ hw ↦ hw
  | cons item items ih =>
    rw [settleBatch]
    refine .bind settle_running fun _ ↦ .bind recordResult_running fun stop ↦ ?_
    exact .bind ih fun stops ↦ .pure fun _ hw ↦ hw

/-! ## The two paths -/

theorem concluded_of_running {phase : ToolPhase} {w : World σ} (h : Running deps [] w) :
    Concluded (Running deps []) (Halted deps) phase w := by
  cases phase with
  | go => exact h
  | _ => exact .inl h

theorem conclude_running {m : Engine σ ToolPhase} {ks : List Kind} (hm : Footprint deps ks m)
    (hks : ∀ k ∈ ks, k ∉ besideKinds) :
    Triple (Running deps []) m (Concluded (Running deps []) (Halted deps)) fun _ ↦ Halted deps :=
  (calm_footprint hm hks).conseq (fun _ h ↦ h) (fun _ _ ↦ concluded_of_running) fun _ _ h ↦ h

theorem runOneCall_running :
    Triple (Running deps []) (runOneCall deps base call)
      (Concluded (Running deps []) (Halted deps)) fun _ ↦ Halted deps := by
  have hpure : ∀ phase, Triple (Running deps []) (pure phase : Engine σ ToolPhase)
      (Concluded (Running deps []) (Halted deps)) fun _ ↦ Halted deps :=
    fun _ ↦ .pure fun _ ↦ concluded_of_running
  rw [runOneCall]
  refine .bind (calm_footprint (show Footprint deps [.takeUp] _ from footprint_note
    (fun _ ↦ rfl) (List.mem_singleton_self _)) (by decide)) fun _ ↦ ?_
  refine .bind (calm_footprint footprint_takeUp (by decide)) fun phase ↦ ?_
  cases phase with
  | some phase => exact hpure phase
  | none =>
    refine .bind (calm_footprint footprint_passGates (by decide)) fun admission ↦ ?_
    cases admission with
    | stop phase => exact hpure phase
    | refused => exact hpure .go
    | admitted =>
      refine .bind beginSideEffect_running fun begun ↦ ?_
      cases begun with
      | none => exact hpure .go
      | some sideEffectId =>
        refine .bind execute_running fun result ↦ .bind settle_running fun _ ↦ ?_
        refine .bind recordResult_running fun hookStop ↦ ?_
        exact conclude_running (footprint_afterResults (List.mem_singleton_self _)) (by decide)

/-- How the first phase of a batch ends: with the calls started open, or halted. -/
def StartedBatch (deps : TurnEngineDeps σ) (started : List String) :
    Except ToolPhase (List (NormalizedToolCall × String)) → World σ → Prop
  | .ok more => Running deps (executing (started ++ more.map Prod.snd) 0)
  | .error phase => Concluded (Running deps []) (Halted deps) phase

theorem executing_concat (ids : List String) (id : String) :
    executing (ids ++ [id]) 0 = executing ids 0 ++ [(id, [.intent, .started])] := by
  simp [executing]

theorem startBatch_running (items : List (NormalizedToolCall × ToolEvaluation))
    (started : List String) :
    Triple (Running deps (executing started 0)) (startBatch deps base items)
      (StartedBatch deps started) fun _ ↦ Halted deps := by
  induction items generalizing started with
  | nil =>
    refine .pure fun w hw ↦ ?_
    rwa [StartedBatch, List.map_nil, List.append_nil]
  | cons item items ih =>
    obtain ⟨call, verdict⟩ := item
    rw [startBatch]
    refine .bind takeUp_running fun phase ↦ ?_
    cases phase with
    | some phase => exact .pure fun _ hw ↦ hw
    | none =>
      refine .bind preToolUse_running fun blocked ↦ ?_
      split
      · exact ih started
      · refine .bind (running_persist (show Kind.policyDecision ∉ besideKinds by decide)) fun _ ↦ ?_
        refine .bind beginSideEffect_running fun begun ↦ ?_
        cases begun with
        | none => exact ih started
        | some sideEffectId =>
          refine .bind ((ih (started ++ [sideEffectId])).conseq (fun w hw ↦ ?_) (fun _ _ h ↦ h)
            fun _ _ h ↦ h) fun more ↦ ?_
          · rw [executing_concat]
            exact hw
          · cases more with
            | error phase => exact .pure fun _ hw ↦ hw
            | ok more =>
              refine .pure fun w hw ↦ ?_
              simpa only [StartedBatch, List.map_cons, List.append_assoc, List.singleton_append]
                using hw

theorem runParallelBatch_running (calls : List NormalizedToolCall) :
    Triple (Running deps []) (runParallelBatch deps base calls)
      (Concluded (Running deps []) (Halted deps)) fun _ ↦ Halted deps := by
  rw [runParallelBatch]
  refine .bind (calm_footprint (show Footprint deps [.takeUpBatch] _ from footprint_note
    (fun _ ↦ rfl) (List.mem_singleton_self _)) (by decide)) fun _ ↦ ?_
  refine .bind (calm_footprint (footprint_evaluateAll calls) (by decide)) fun verdicts ↦ ?_
  split
  · refine .bind (startBatch_running _ []) fun started ↦ ?_
    cases started with
    | error phase => exact .pure fun _ hw ↦ hw
    | ok cleared =>
      refine .bind (executeAll_executing cleared) fun results ↦ ?_
      refine .bind ((settleBatch_running (cleared.zip results)).conseq (fun w hw ↦ ?_)
        (fun _ _ h ↦ h) fun _ _ h ↦ h) fun hookStop ↦ ?_
      · have hids : (cleared.zip results).map (fun x ↦ x.1.2) = cleared.map Prod.snd := by
          calc (cleared.zip results).map (fun x ↦ x.1.2)
              = ((cleared.zip results).map Prod.fst).map Prod.snd := by rw [List.map_map]; rfl
            _ = cleared.map Prod.snd := by rw [List.map_fst_zip hw.1.ge]
        rw [hids]
        exact hw.2
      · exact conclude_running (footprint_afterResults (List.mem_singleton_self _)) (by decide)
  · exact runSerially_rule (q := Concluded (Running deps []) (Halted deps)) (fun _ ↦ .rfl) (fun _ ↦ runOneCall_running) calls

theorem running_rules : CallRules deps base (Running deps []) (Halted deps) where
  weaken := .inl
  go_outer hl hw := hw.leaves hl (by decide)
  stop_outer hl hw := hw.leaves hl (by decide)
  one _ := runOneCall_running
  batch := runParallelBatch_running

/-! ## The turn -/

theorem running_opening {env : σ} {drawn : ℕ} {w : World σ} (h : Opening deps env drawn w) :
    Running deps [] w := by
  have hnil : Running deps [] { w with trace := [] } := by
    refine ⟨⟨List.nodup_nil, by simp, by simp, fun id _ ↦ ?_, fun id hid ↦ absurd rfl hid⟩, ?_⟩
    · exact List.mem_cons_self
    · intro i o hi
      simp [World.obs] at hi
  have hkinds : ∀ o ∈ w.obs, o.kind ∈ openingKinds := by
    intro o ho
    obtain ⟨e, he, rfl⟩ := List.mem_map.mp ho
    exact h.kinds e he
  exact hnil.extend rfl hkinds le_rfl (by decide)

theorem enter_halted (deps : TurnEngineDeps σ) (input : TurnInput) (env : σ) (drawn : ℕ) :
    Halted deps (after (enter deps input (initial env drawn))) :=
  enter_holds running_opening (fun _ ↦ running_rules) input

/-- **When the side effects of a turn are settled.** Of every turn, run or resumed, in any
environment: all that was started was executed once and settled once exactly when no interruption
found a side effect open. -/
theorem enter_eachSettled_iff (deps : TurnEngineDeps σ) (input : TurnInput) (env : σ) (drawn : ℕ) :
    EachSettled (after (enter deps input (initial env drawn))).obs ↔
      Uninterrupted (after (enter deps input (initial env drawn))).obs := by
  rcases enter_halted deps input env drawn with h | h
  · exact iff_of_true h.eachSettled h.uninterrupted
  · exact iff_of_false h.not_eachSettled h.interrupted

/-- Two calls that may run at once, and a budget of one. -/
def oneCallDeps : TurnEngineDeps Unit :=
  { plainDeps with
    budget := { defaultBudget with maxToolCallsPerTurn := 1 }
    tools := { plainDeps.tools with
      planBatches := some fun calls _ ↦ (.ok [calls.map NormalizedToolCall.callId], ()) } }

def twoCalls : TurnInput :=
  plainResume [plainCall "call_1" "read_file", plainCall "call_2" "list_directory"]

/-- The first call of the batch is started, the budget stops the turn at the second, and the first
is neither executed nor settled, although no execution and no append threw. -/
theorem not_eachSettled_budget :
    (∀ o ∈ (after (enter oneCallDeps twoCalls (initial () 0))).obs, o.threw = false) ∧
      ¬EachSettled (after (enter oneCallDeps twoCalls (initial () 0))).obs := by
  have hhistory : sideEffectHistory ""
      (after (enter oneCallDeps twoCalls (initial () 0))).obs = [.intent, .started] := by
    decide +kernel
  refine ⟨by decide +kernel, fun h ↦ ?_⟩
  have hone := (h "" [.intent] [] hhistory).2.1
  cases hone

end TurnEngine

end QwenHarness
