import Mathlib.Logic.Basic

/-!
# Programs that change a state and may throw

Two ways to talk about a program of the state-and-exception monad, for any state and any exception.
A `Frame` is a relation between the state before and the state after that composes, such as "the
log only grew" or "this field is as it was"; a program is `Within` a frame if every run of it is,
whether it returns or throws. A `Triple` gives a precondition and one postcondition for each way to
end.

A frame is checked part by part and needs no precondition, so it is what most functions of a
program are specified by; a triple is for the few that establish something.
-/

namespace Effect

variable {ε ω α β : Type}

/-- The state a result leaves. -/
def after : EStateM.Result ε ω α → ω
  | .ok _ w => w
  | .error _ w => w

@[simp] theorem after_ok (a : α) (w : ω) : after (.ok a w : EStateM.Result ε ω α) = w := rfl

@[simp] theorem after_error (e : ε) (w : ω) :
    after (.error e w : EStateM.Result ε ω α) = w := rfl

/-- Whether a result was returned and not thrown. -/
def returned : EStateM.Result ε ω α → Bool
  | .ok _ _ => true
  | .error _ _ => false

/-- Run a program and hand back how it ended instead of throwing. -/
def attempt (m : EStateM ε ω α) : EStateM ε ω (Except ε α) := fun w ↦
  match m w with
  | .ok a w' => .ok (.ok a) w'
  | .error e w' => .ok (.error e) w'

/-- Throw if the outcome is an error. -/
def orThrow : Except ε α → EStateM ε ω α
  | .ok a => pure a
  | .error e => throw e

/-- Run the program if the condition holds. -/
def when (c : Prop) [Decidable c] (m : EStateM ε ω Unit) : EStateM ε ω Unit :=
  if c then m else pure ()

/-- Run every program, whatever the others do, and then throw the first error if there is one. -/
def runAll : List (EStateM ε ω α) → EStateM ε ω (List α)
  | [] => pure []
  | m :: ms => do
    let a ← attempt m
    let as ← attempt (runAll ms)
    let a ← orThrow a
    let as ← orThrow as
    pure (a :: as)

/-! ## Runs of composed programs -/

theorem bind_apply (m : EStateM ε ω α) (f : α → EStateM ε ω β) (w : ω) :
    (m >>= f) w = match m w with
      | .ok a w' => f a w'
      | .error e w' => .error e w' := rfl

/-- Programs that start alike and go on alike from there. -/
theorem bind_apply_congr {m : EStateM ε ω α} {f g : α → EStateM ε ω β} {w : ω}
    (h : ∀ a w', m w = .ok a w' → f a w' = g a w') : (m >>= f) w = (m >>= g) w := by
  rw [bind_apply, bind_apply]
  cases hr : m w with
  | ok a w' => exact h a w' hr
  | error e w' => rfl

theorem tryCatch_apply (m : EStateM ε ω α) (h : ε → EStateM ε ω α) (w : ω) :
    (MonadExcept.tryCatch m h) w = match m w with
      | .ok a w' => .ok a w'
      | .error e w' => h e w' := by
  change EStateM.tryCatch m h w = _
  delta EStateM.tryCatch
  cases m w <;> rfl

/-! ## Frames -/

/-- A relation between the state before and the state after. -/
structure Frame (ω : Type) where
  rel : ω → ω → Prop
  refl : ∀ w, rel w w
  trans : ∀ {a b c}, rel a b → rel b c → rel a c

/-- Every run of the program stays within the frame. -/
def Within (F : Frame ω) (m : EStateM ε ω α) : Prop := ∀ w, F.rel w (after (m w))

namespace Within

variable {F : Frame ω} {m : EStateM ε ω α}

theorem pure (a : α) : Within F (Pure.pure a : EStateM ε ω α) := fun w ↦ F.refl w

theorem throw (e : ε) : Within F (MonadExcept.throw e : EStateM ε ω α) := fun w ↦ F.refl w

theorem bind {f : α → EStateM ε ω β} (hm : Within F m) (hf : ∀ a, Within F (f a)) :
    Within F (m >>= f) := by
  intro w
  rw [bind_apply]
  have hw := hm w
  cases hr : m w with
  | ok a w' =>
    rw [hr] at hw
    exact F.trans hw (hf a w')
  | error e w' =>
    rw [hr] at hw
    exact hw

theorem tryCatch {h : ε → EStateM ε ω α} (hm : Within F m) (hh : ∀ e, Within F (h e)) :
    Within F (MonadExcept.tryCatch m h) := by
  intro w
  have hw := hm w
  rw [tryCatch_apply]
  cases hr : m w with
  | ok a w' =>
    rw [hr] at hw
    exact hw
  | error e w' =>
    rw [hr] at hw
    exact F.trans hw (hh e w')

theorem attempt (hm : Within F m) : Within F (Effect.attempt m) := by
  intro w
  have hw := hm w
  rw [Effect.attempt]
  cases hr : m w with
  | ok a w' =>
    rw [hr] at hw
    exact hw
  | error e w' =>
    rw [hr] at hw
    exact hw

theorem orThrow (a : Except ε α) : Within F (Effect.orThrow a : EStateM ε ω α) := by
  cases a with
  | ok a => exact pure a
  | error e => exact throw e

theorem when {c : Prop} [Decidable c] {m : EStateM ε ω Unit} (h : c → Within F m) :
    Within F (Effect.when c m) := by
  rw [Effect.when]
  split
  · exact h ‹c›
  · exact pure ()

theorem runAll {ms : List (EStateM ε ω α)} (h : ∀ m ∈ ms, Within F m) :
    Within F (Effect.runAll ms) := by
  induction ms with
  | nil => exact pure []
  | cons m ms ih =>
    rw [List.forall_mem_cons] at h
    refine bind h.1.attempt fun a ↦ bind (ih h.2).attempt fun as ↦ ?_
    exact bind (orThrow a) fun a ↦ bind (orThrow as) fun as ↦ pure _

/-- A weaker frame. -/
theorem mono {G : Frame ω} (hm : Within F m) (h : ∀ {w w'}, F.rel w w' → G.rel w w') :
    Within G m :=
  fun w ↦ h (hm w)

end Within

/-! ## Triples -/

/-- From the precondition the program returns with the one postcondition or throws with the
other. -/
def Triple (p : ω → Prop) (m : EStateM ε ω α) (q : α → ω → Prop) (r : ε → ω → Prop) :
    Prop :=
  ∀ w, p w →
    match m w with
    | .ok a w' => q a w'
    | .error e w' => r e w'

namespace Triple

variable {p : ω → Prop} {m : EStateM ε ω α} {q q' : α → ω → Prop}
  {r r' : ε → ω → Prop}

theorem pure {a : α} (h : ∀ w, p w → q a w) :
    Triple p (Pure.pure a : EStateM ε ω α) q r := h

theorem throw {e : ε} (h : ∀ w, p w → r e w) :
    Triple p (MonadExcept.throw e : EStateM ε ω α) q r := h

theorem ok {w w' : ω} {a : α} (h : Triple p m q r) (hw : p w) (hr : m w = .ok a w') :
    q a w' := by
  have hp := h w hw
  rwa [hr] at hp

theorem error {w w' : ω} {e : ε} (h : Triple p m q r) (hw : p w)
    (hr : m w = .error e w') : r e w' := by
  have hp := h w hw
  rwa [hr] at hp

theorem bind {s : α → ω → Prop} {f : α → EStateM ε ω β} {q : β → ω → Prop}
    (hm : Triple p m s r) (hf : ∀ a, Triple (s a) (f a) q r) :
    Triple p (m >>= f) q r := by
  intro w hw
  rw [bind_apply]
  cases hr : m w with
  | ok a w' => exact hf a w' (hm.ok hw hr)
  | error e w' => exact hm.error hw hr

theorem tryCatch {s : ε → ω → Prop} {h : ε → EStateM ε ω α} (hm : Triple p m q s)
    (hh : ∀ e, Triple (s e) (h e) q r) :
    Triple p (MonadExcept.tryCatch m h) q r := by
  intro w hw
  rw [tryCatch_apply]
  cases hr : m w with
  | ok a w' => exact hm.ok hw hr
  | error e w' => exact hh e w' (hm.error hw hr)

theorem attempt {q : Except ε α → ω → Prop}
    (hm : Triple p m (fun a ↦ q (.ok a)) fun e ↦ q (.error e)) :
    Triple p (Effect.attempt m) q r := by
  intro w hw
  rw [Effect.attempt]
  cases hr : m w with
  | ok a w' => exact hm.ok hw hr
  | error e w' => exact hm.error hw hr

theorem when {c : Prop} [Decidable c] {m : EStateM ε ω Unit} {q : Unit → ω → Prop}
    (hm : c → Triple p m q r) (hpost : ¬c → ∀ w, p w → q () w) :
    Triple p (Effect.when c m) q r := by
  rw [Effect.when]
  split
  · exact hm ‹c›
  · exact pure (hpost ‹¬c›)

theorem conseq {s : ω → Prop} (h : Triple s m q' r') (hpre : ∀ w, p w → s w)
    (hpost : ∀ a w, q' a w → q a w) (hthrown : ∀ e w, r' e w → r e w) :
    Triple p m q r := by
  intro w hw
  cases hr : m w with
  | ok a w' => exact hpost a w' (h.ok (hpre w hw) hr)
  | error e w' => exact hthrown e w' (h.error (hpre w hw) hr)

/-- A part of the precondition that is not about the state. -/
theorem assuming {c : Prop} (h : c → Triple p m q r) : Triple (fun w ↦ c ∧ p w) m q r :=
  fun w hw ↦ h hw.1 w hw.2

theorem forExists {ι : Type} {s : ι → ω → Prop} (h : ∀ i, Triple (s i) m q r) :
    Triple (fun w ↦ ∃ i, s i w) m q r :=
  fun w ⟨i, hw⟩ ↦ h i w hw

theorem or {s : ω → Prop} (h : Triple p m q r) (h' : Triple s m q r) :
    Triple (fun w ↦ p w ∨ s w) m q r :=
  fun w hw ↦ hw.elim (h w) (h' w)

/-- A rule may be used under an assumption about the end that goes back along the run. -/
theorem under {F : Frame ω} {I : ω → Prop} (h : Triple p m q r) (hm : Within F m)
    (hI : ∀ {w w'}, F.rel w w' → I w' → I w) :
    Triple (fun w ↦ I w → p w) m (fun a w ↦ I w → q a w) (fun e w ↦ I w → r e w) := by
  intro w hw
  have hrel := hm w
  cases hr : m w with
  | ok a w' =>
    rw [hr] at hrel
    exact fun hw' ↦ h.ok (hw (hI hrel hw')) hr
  | error e w' =>
    rw [hr] at hrel
    exact fun hw' ↦ h.error (hw (hI hrel hw')) hr

/-- How running all ends: what is done was done for every index, and an error is one of them. -/
def AllDone {ι : Type} (d : List (ι × Except ε α) → ω → Prop) (l : List ι) :
    Except ε (List α) → ω → Prop
  | .ok as => fun w ↦ as.length = l.length ∧ d (l.zip (as.map .ok)) w
  | .error _ => fun w ↦ ∃ rest, rest.map Prod.fst = l ∧ (∃ x ∈ rest, x.2.isOk = false) ∧ d rest w

theorem AllDone.exists_rest {ι : Type} {d : List (ι × Except ε α) → ω → Prop} {l : List ι}
    {as : Except ε (List α)} {w : ω} (h : AllDone d l as w) :
    ∃ rest, rest.map Prod.fst = l ∧ d rest w := by
  cases as with
  | ok as => exact ⟨_, by rw [List.map_fst_zip (by simp [h.1])], h.2⟩
  | error e => exact h.imp fun _ h ↦ ⟨h.1, h.2.2⟩

/-- **Running all.** If each program adds its outcome to what is done, then all of them together
add all outcomes, whether the first error is thrown in the end or there is none. -/
theorem runAll {ι : Type} {f : ι → EStateM ε ω α} {l : List ι}
    {d : List (ι × Except ε α) → ω → Prop}
    (hf : ∀ before i after, before.map Prod.fst ++ i :: after = l →
      Triple (d before) (f i) (fun a ↦ d (before ++ [(i, .ok a)]))
        fun e ↦ d (before ++ [(i, .error e)])) :
    Triple (d []) (Effect.runAll (l.map f)) (fun as ↦ AllDone d l (.ok as))
      fun e ↦ AllDone d l (.error e) := by
  induction l generalizing d with
  | nil => exact pure fun w hw ↦ ⟨rfl, hw⟩
  | cons i l ih =>
    rw [List.map_cons, Effect.runAll]
    refine bind (attempt (q := fun a ↦ d [(i, a)]) (hf [] i l rfl)) fun a ↦ ?_
    refine bind (attempt (q := AllDone (fun rest ↦ d ((i, a) :: rest)) l)
      (ih fun before j after h ↦ hf ((i, a) :: before) j after (congrArg (i :: ·) h))) fun as ↦ ?_
    cases a with
    | error e =>
      refine throw fun w hw ↦ ?_
      obtain ⟨rest, hfst, hdone⟩ := hw.exists_rest
      exact ⟨(i, .error e) :: rest, by rw [List.map_cons, hfst],
        ⟨_, List.mem_cons_self, rfl⟩, hdone⟩
    | ok a =>
      cases as with
      | error e =>
        refine throw fun w hw ↦ ?_
        obtain ⟨rest, hfst, ⟨x, hx, hok⟩, hdone⟩ := hw
        exact ⟨(i, .ok a) :: rest, by rw [List.map_cons, hfst], ⟨x, List.mem_cons_of_mem _ hx, hok⟩,
          hdone⟩
      | ok as => exact pure fun w hw ↦ ⟨by rw [List.length_cons, List.length_cons, hw.1], hw.2⟩

end Triple

/-- A state predicate the program keeps, however it ends. -/
def Keeps (I : ω → Prop) (m : EStateM ε ω α) : Prop := Triple I m (fun _ ↦ I) fun _ ↦ I

/-- What a frame preserves, a program within it keeps. -/
theorem Within.keeps {F : Frame ω} {m : EStateM ε ω α} {I : ω → Prop} (hm : Within F m)
    (hI : ∀ {w w'}, F.rel w w' → I w → I w') : Keeps I m := by
  intro w hw
  have hrel := hm w
  cases hr : m w with
  | ok a w' =>
    rw [hr] at hrel
    exact hI hrel hw
  | error e w' =>
    rw [hr] at hrel
    exact hI hrel hw

end Effect
