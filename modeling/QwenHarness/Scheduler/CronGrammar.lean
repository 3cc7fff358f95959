import QwenHarness.Scheduler.Cron
import Mathlib.Data.List.Forall2

/-!
# How cron fields are written, and what is read

A field is a list of parts, each a star, a number or a range, and perhaps a step. How a field is
written in parts is unique (`IsWrittenAs.unique`), and a field is read just when it is written so in
parts whose bounds, with day 7 already turned into day 0, stand in order in the field
(`parseField_eq_ok_iff`).
-/

namespace QwenHarness.Scheduler

open Utf16

/-! ## Parts as they are written -/

inductive CronItem
  | star
  | number (n : Text)
  | range (a b : Text)
deriving DecidableEq, Repr

structure CronPart where
  item : CronItem
  step : Option Text
deriving DecidableEq, Repr

namespace CronItem

def text : CronItem → Text
  | star => [Scheduler.star]
  | number n => n
  | range a b => a ++ hyphen :: b

/-- The numbers are written in digits. -/
def IsWritten : CronItem → Prop
  | star => True
  | number n => isNumeral n = true
  | range a b => isNumeral a = true ∧ isNumeral b = true

/-- The bounds as the parser takes them. -/
def bounds (spec : FieldSpec) (hasStep : Bool) : CronItem → ℕ × ℕ
  | star => (spec.min, spec.max)
  | number n =>
    let lo := normalize (numeral n) spec
    (lo, if hasStep then spec.max else lo)
  | range a b => (normalize (numeral a) spec, normalize (numeral b) spec)

end CronItem

namespace CronPart

def text (p : CronPart) : Text := p.item.text ++ (p.step.map fun s ↦ solidus :: s).getD []

def stepSize (p : CronPart) : ℕ := (p.step.map numeral).getD 1

def IsWritten (p : CronPart) : Prop :=
  p.item.IsWritten ∧ ∀ s, p.step = some s → isNumeral s = true ∧ numeral s ≠ 0

/-- What the parser adds for a part. -/
def span (spec : FieldSpec) (p : CronPart) : Span :=
  let (lo, hi) := p.item.bounds spec p.step.isSome
  ⟨lo, hi, p.stepSize⟩

/-- The bounds are in order, and in the field. -/
def Taken (spec : FieldSpec) (p : CronPart) : Prop :=
  spec.min ≤ (p.span spec).lo ∧ (p.span spec).lo ≤ (p.span spec).hi ∧ (p.span spec).hi ≤ spec.max

end CronPart

/-- A field is written as a list of parts. -/
structure IsWrittenAs (raw : Text) (parts : List CronPart) : Prop where
  ne_nil : parts ≠ []
  isWritten : ∀ p ∈ parts, p.IsWritten
  text_eq : [comma].intercalate (parts.map CronPart.text) = raw

/-! ## Numerals -/

theorem isNumeral_ne_nil {t : Text} (h : isNumeral t = true) : t ≠ [] := by
  rintro rfl
  exact Bool.false_ne_true h

theorem isDigit_of_mem {t : Text} {u : CodeUnit} (h : isNumeral t = true) (hu : u ∈ t) :
    isDigit u = true := by
  rw [isNumeral, Bool.and_eq_true, List.all_eq_true] at h
  exact h.2 u hu

theorem not_mem_of_isNumeral {t : Text} {u : CodeUnit} (h : isNumeral t = true)
    (hu : isDigit u = false) : u ∉ t :=
  fun hmem ↦ Bool.false_ne_true (hu.symm.trans (isDigit_of_mem h hmem))

theorem hyphen_not_mem {t : Text} (h : isNumeral t = true) : hyphen ∉ t :=
  not_mem_of_isNumeral h (by decide)

theorem ne_star {t : Text} (h : isNumeral t = true) : t ≠ [star] := by
  rintro rfl
  exact Bool.false_ne_true h

/-! ## How a part is split -/

namespace CronItem

variable {i j : CronItem} {u : CodeUnit}

theorem not_mem_text (hi : i.IsWritten) (hdigit : isDigit u = false) (hstar : u ≠ Scheduler.star)
    (hhyphen : u ≠ hyphen) : u ∉ i.text := by
  cases i with
  | star => exact fun h ↦ hstar (List.mem_singleton.mp h)
  | number n => exact not_mem_of_isNumeral hi hdigit
  | range a b =>
    rw [text, List.mem_append, List.mem_cons, not_or, not_or]
    exact ⟨not_mem_of_isNumeral hi.1 hdigit, hhyphen, not_mem_of_isNumeral hi.2 hdigit⟩

theorem solidus_not_mem (hi : i.IsWritten) : solidus ∉ i.text :=
  not_mem_text hi (by decide) (by decide) (by decide)

theorem comma_not_mem (hi : i.IsWritten) : comma ∉ i.text :=
  not_mem_text hi (by decide) (by decide) (by decide)

theorem text_ne_nil (hi : i.IsWritten) : i.text ≠ [] := by
  cases i with
  | star => exact List.cons_ne_nil _ _
  | number n => exact isNumeral_ne_nil hi
  | range a b => exact List.append_ne_nil_of_right_ne_nil _ (List.cons_ne_nil _ _)

theorem splitOn_range {a b : Text} (h : (range a b).IsWritten) :
    (range a b).text.splitOn hyphen = [a, b] :=
  Split.splitOn_eq_pair_iff.mpr ⟨hyphen_not_mem h.1, hyphen_not_mem h.2, rfl⟩

theorem hyphen_mem_range {a b : Text} : hyphen ∈ (range a b).text :=
  List.mem_append_right _ List.mem_cons_self

theorem range_text_ne_star {a b : Text} : (range a b).text ≠ [Scheduler.star] := by
  intro h
  have hmem : hyphen ∈ [Scheduler.star] := h ▸ hyphen_mem_range (a := a) (b := b)
  revert hmem
  decide

theorem text_injective (hi : i.IsWritten) (hj : j.IsWritten) (h : i.text = j.text) : i = j := by
  cases i with
  | star =>
    cases j with
    | star => rfl
    | number n => exact absurd h.symm (ne_star hj)
    | range a b => exact absurd h.symm range_text_ne_star
  | number n =>
    cases j with
    | star => exact absurd h (ne_star hi)
    | number m => exact congrArg number h
    | range a b =>
      have hmem : hyphen ∈ (number n).text := h ▸ hyphen_mem_range
      exact absurd hmem (hyphen_not_mem hi)
  | range a b =>
    cases j with
    | star => exact absurd h range_text_ne_star
    | number n =>
      have hmem : hyphen ∈ (number n).text := h ▸ hyphen_mem_range
      exact absurd hmem (hyphen_not_mem hj)
    | range a' b' =>
      have hsplit : [a, b] = [a', b'] := by rw [← splitOn_range hi, h, splitOn_range hj]
      rw [List.cons.injEq, List.cons.injEq] at hsplit
      rw [hsplit.1, hsplit.2.1]

end CronItem

namespace CronPart

variable {p q : CronPart}

theorem splitOn_text (hp : p.IsWritten) :
    p.text.splitOn solidus = p.item.text :: p.step.toList := by
  rcases p with ⟨item, - | s⟩
  · refine Split.splitOn_eq_singleton_iff.mpr ⟨CronItem.solidus_not_mem hp.1, ?_⟩
    exact (List.append_nil _).symm
  · exact Split.splitOn_eq_pair_iff.mpr ⟨CronItem.solidus_not_mem hp.1,
      not_mem_of_isNumeral (hp.2 s rfl).1 (by decide), rfl⟩

theorem comma_not_mem (hp : p.IsWritten) : comma ∉ p.text := by
  rw [text, List.mem_append, not_or]
  refine ⟨CronItem.comma_not_mem hp.1, ?_⟩
  rcases p with ⟨item, - | s⟩
  · exact List.not_mem_nil
  · refine List.not_mem_cons_of_ne_of_not_mem (by decide) ?_
    exact not_mem_of_isNumeral (hp.2 s rfl).1 (by decide)

theorem text_ne_nil (hp : p.IsWritten) : p.text ≠ [] :=
  List.append_ne_nil_of_left_ne_nil (CronItem.text_ne_nil hp.1) _

theorem text_injective (hp : p.IsWritten) (hq : q.IsWritten) (h : p.text = q.text) : p = q := by
  have hsplit : p.item.text :: p.step.toList = q.item.text :: q.step.toList := by
    rw [← splitOn_text hp, h, splitOn_text hq]
  rw [List.cons.injEq] at hsplit
  have hitem : p.item = q.item := CronItem.text_injective hp.1 hq.1 hsplit.1
  have hstep : p.step = q.step := by
    have hhead : p.step.toList.head? = q.step.toList.head? := congrArg List.head? hsplit.2
    rwa [Option.head?_toList, Option.head?_toList] at hhead
  cases p
  cases q
  exact congrArg₂ CronPart.mk hitem hstep

end CronPart

/-! ## How a field is split -/

section Written

variable {raw : Text} {ps qs : List CronPart}

theorem IsWrittenAs.splitOn_eq (h : IsWrittenAs raw ps) :
    raw.splitOn comma = ps.map CronPart.text := by
  refine Split.splitOn_eq_iff.mpr ⟨?_, ?_, h.text_eq⟩
  · rw [Ne, List.map_eq_nil_iff]
    exact h.ne_nil
  · rw [List.forall_mem_map]
    exact fun p hp ↦ CronPart.comma_not_mem (h.isWritten p hp)

theorem map_text_injective (hp : ∀ p ∈ ps, p.IsWritten) (hq : ∀ q ∈ qs, q.IsWritten)
    (h : ps.map CronPart.text = qs.map CronPart.text) : ps = qs := by
  induction ps generalizing qs with
  | nil => exact (List.map_eq_nil_iff.mp h.symm).symm
  | cons p ps ih =>
    cases qs with
    | nil => exact absurd h (List.cons_ne_nil _ _)
    | cons q qs =>
      rw [List.map_cons, List.map_cons, List.cons.injEq] at h
      rw [List.forall_mem_cons] at hp hq
      rw [CronPart.text_injective hp.1 hq.1 h.1, ih hp.2 hq.2 h.2]

/-- **A field is written in one way.** -/
theorem IsWrittenAs.unique (hp : IsWrittenAs raw ps) (hq : IsWrittenAs raw qs) : ps = qs :=
  map_text_injective hp.isWritten hq.isWritten (hp.splitOn_eq.symm.trans hq.splitOn_eq)

end Written

/-! ## Reading a part -/

section Except

variable {α β ε : Type}

theorem error_ne_ok {e : ε} {a : α} : (.error e : Except ε α) ≠ .ok a := by
  intro h
  cases h

theorem andThen_eq_ok {x : Except ε α} {f : α → Except ε β} {b : β} :
    x >>= f = .ok b ↔ ∃ a, x = .ok a ∧ f a = .ok b := by
  cases x with
  | error e =>
    refine iff_of_false error_ne_ok ?_
    rintro ⟨a, ha, -⟩
    exact error_ne_ok ha
  | ok a =>
    constructor
    · exact fun h ↦ ⟨a, rfl, h⟩
    · rintro ⟨a', ha, h⟩
      cases ha
      exact h

theorem ite_error_eq_ok {c : Prop} [Decidable c] {e : ε} {x : Except ε α} {a : α} :
    (if c then .error e else x) = .ok a ↔ ¬c ∧ x = .ok a := by
  by_cases hc : c
  · rw [if_pos hc]
    exact iff_of_false error_ne_ok fun h ↦ h.1 hc
  · rw [if_neg hc]
    exact (and_iff_right hc).symm

end Except

variable {spec : FieldSpec} {t part raw : Text} {step : Option Text} {n : ℕ} {s : Span}

theorem toInt_eq_ok_iff {field : CronFieldName} :
    toInt t field = .ok n ↔ isNumeral t = true ∧ numeral t = n := by
  rw [toInt]
  by_cases h : isNumeral t = true
  · rw [if_pos h, Except.ok.injEq, and_iff_right h]
  · rw [if_neg h]
    exact iff_of_false error_ne_ok fun hn ↦ h hn.1

theorem parseStep_eq_ok_iff : parseStep spec part step = .ok n ↔
    (∀ s, step = some s → isNumeral s = true ∧ numeral s ≠ 0) ∧ (step.map numeral).getD 1 = n := by
  cases step with
  | none =>
    rw [parseStep, Except.ok.injEq]
    exact (and_iff_right fun s h ↦ absurd h.symm (Option.some_ne_none s)).symm
  | some s =>
    rw [parseStep, andThen_eq_ok]
    constructor
    · rintro ⟨k, hk, h⟩
      obtain ⟨hs, rfl⟩ := toInt_eq_ok_iff.mp hk
      rw [ite_error_eq_ok, Except.ok.injEq] at h
      refine ⟨?_, h.2⟩
      rintro s' ⟨⟩
      exact ⟨hs, h.1⟩
    · rintro ⟨hs, rfl⟩
      refine ⟨numeral s, toInt_eq_ok_iff.mpr ⟨(hs s rfl).1, rfl⟩, ?_⟩
      exact ite_error_eq_ok.mpr ⟨(hs s rfl).2, rfl⟩

theorem assertInRange_eq_ok_iff {u : Unit} :
    assertInRange n spec t = .ok u ↔ spec.min ≤ n ∧ n ≤ spec.max := by
  rw [assertInRange, ite_error_eq_ok, not_or, not_lt, not_lt]
  exact and_iff_left rfl

/-- Only a range has its bounds compared before they are looked up in the field. -/
def CronItem.Ordered (spec : FieldSpec) : CronItem → Prop
  | .range a b => normalize (numeral a) spec ≤ normalize (numeral b) spec
  | _ => True

theorem parseRange_of_isWritten {i : CronItem} (hi : i.IsWritten) {r : ℕ × ℕ} :
    parseRange spec part i.text step = .ok r ↔ i.Ordered spec ∧ i.bounds spec step.isSome = r := by
  cases i with
  | star =>
    rw [parseRange, if_pos (show CronItem.star.text = [star] from rfl), Except.ok.injEq]
    exact (and_iff_right trivial).symm
  | number n =>
    have hstar : ¬(CronItem.number n).text = [star] := ne_star hi
    have hhyphen : ¬(CronItem.number n).text.contains hyphen = true := fun h ↦
      hyphen_not_mem hi (List.contains_iff_mem.mp h)
    rw [parseRange, if_neg hstar, if_neg hhyphen, andThen_eq_ok]
    constructor
    · rintro ⟨k, hk, h⟩
      obtain ⟨-, rfl⟩ := toInt_eq_ok_iff.mp hk
      refine ⟨trivial, ?_⟩
      cases step <;> exact Except.ok.inj h
    · rintro ⟨-, rfl⟩
      refine ⟨numeral n, toInt_eq_ok_iff.mpr ⟨hi, rfl⟩, ?_⟩
      cases step <;> rfl
  | range a b =>
    have hhyphen : (CronItem.range a b).text.contains hyphen = true :=
      List.contains_iff_mem.mpr CronItem.hyphen_mem_range
    rw [parseRange, if_neg CronItem.range_text_ne_star, if_pos hhyphen, CronItem.splitOn_range hi]
    simp only [andThen_eq_ok, toInt_eq_ok_iff, ite_error_eq_ok, not_lt, Except.ok.injEq]
    constructor
    · rintro ⟨k, ⟨-, rfl⟩, l, ⟨-, rfl⟩, h⟩
      exact h
    · exact fun h ↦ ⟨_, ⟨hi.1, rfl⟩, _, ⟨hi.2, rfl⟩, h⟩

theorem exists_isWritten_of_parseRange {r : ℕ × ℕ} (h : parseRange spec part t step = .ok r) :
    ∃ i : CronItem, i.IsWritten ∧ i.text = t := by
  rw [parseRange] at h
  split at h
  · next hstar => exact ⟨.star, trivial, hstar.symm⟩
  · split at h
    · split at h
      · next a b hsplit =>
        obtain ⟨k, hk, h⟩ := andThen_eq_ok.mp h
        obtain ⟨l, hl, -⟩ := andThen_eq_ok.mp h
        refine ⟨.range a b, ⟨(toInt_eq_ok_iff.mp hk).1, (toInt_eq_ok_iff.mp hl).1⟩, ?_⟩
        exact (Split.splitOn_eq_pair_iff.mp hsplit).2.2
      · exact absurd h error_ne_ok
    · obtain ⟨k, hk, -⟩ := andThen_eq_ok.mp h
      exact ⟨.number t, (toInt_eq_ok_iff.mp hk).1, rfl⟩

/-- The bounds are ordered, and each in the field. -/
theorem CronPart.taken_iff {p : CronPart} (hspec : spec.min ≤ spec.max) : p.Taken spec ↔
    p.item.Ordered spec ∧ (spec.min ≤ (p.span spec).lo ∧ (p.span spec).lo ≤ spec.max) ∧
      spec.min ≤ (p.span spec).hi ∧ (p.span spec).hi ≤ spec.max := by
  rcases p with ⟨- | n | ⟨a, b⟩, - | s⟩ <;>
    simp [CronPart.Taken, CronPart.span, CronItem.bounds, CronItem.Ordered] <;> omega

theorem parseSpan_eq_ok_iff (hspec : spec.min ≤ spec.max) :
    parseSpan spec part t step = .ok s ↔ ∃ i : CronItem, (⟨i, step⟩ : CronPart).IsWritten ∧
      i.text = t ∧ (⟨i, step⟩ : CronPart).Taken spec ∧ (⟨i, step⟩ : CronPart).span spec = s := by
  simp only [parseSpan, andThen_eq_ok, parseStep_eq_ok_iff, assertInRange_eq_ok_iff,
    Except.ok.injEq]
  constructor
  · rintro ⟨k, ⟨hstep, rfl⟩, r, hr, -, hlo, -, hhi, rfl⟩
    obtain ⟨i, hi, rfl⟩ := exists_isWritten_of_parseRange hr
    obtain ⟨hordered, rfl⟩ := (parseRange_of_isWritten hi).mp hr
    exact ⟨i, ⟨hi, hstep⟩, rfl, (CronPart.taken_iff hspec).mpr ⟨hordered, hlo, hhi⟩, rfl⟩
  · rintro ⟨i, ⟨hi, hstep⟩, rfl, htaken, rfl⟩
    obtain ⟨hordered, hlo, hhi⟩ := (CronPart.taken_iff hspec).mp htaken
    exact ⟨_, ⟨hstep, rfl⟩, _, (parseRange_of_isWritten hi).mpr ⟨hordered, rfl⟩, (), hlo, (), hhi,
      rfl⟩

/-- **What a part is read as.** -/
theorem parsePart_eq_ok_iff (hspec : spec.min ≤ spec.max) : parsePart spec raw part = .ok s ↔
    ∃ p : CronPart, p.IsWritten ∧ p.text = part ∧ p.Taken spec ∧ p.span spec = s := by
  rw [parsePart, ite_error_eq_ok, List.isEmpty_iff]
  constructor
  · rintro ⟨-, h⟩
    split at h
    · next t hsplit =>
      obtain ⟨i, hp, rfl, htaken, hspan⟩ := (parseSpan_eq_ok_iff hspec).mp h
      refine ⟨⟨i, none⟩, hp, ?_, htaken, hspan⟩
      rw [← (Split.splitOn_eq_singleton_iff.mp hsplit).2]
      exact List.append_nil _
    · next t step hsplit =>
      obtain ⟨i, hp, rfl, htaken, hspan⟩ := (parseSpan_eq_ok_iff hspec).mp h
      exact ⟨⟨i, some step⟩, hp, (Split.splitOn_eq_pair_iff.mp hsplit).2.2, htaken, hspan⟩
    · exact absurd h error_ne_ok
  · rintro ⟨⟨i, step⟩, hp, rfl, htaken, hspan⟩
    refine ⟨CronPart.text_ne_nil hp, ?_⟩
    rw [CronPart.splitOn_text hp]
    cases step with
    | none => exact (parseSpan_eq_ok_iff hspec).mpr ⟨i, hp, rfl, htaken, hspan⟩
    | some step => exact (parseSpan_eq_ok_iff hspec).mpr ⟨i, hp, rfl, htaken, hspan⟩

/-! ## Reading a field -/

theorem mapM_eq_ok_iff {α β ε : Type} {f : α → Except ε β} {as : List α} {bs : List β} :
    as.mapM f = .ok bs ↔ List.Forall₂ (fun a b ↦ f a = .ok b) as bs := by
  induction as generalizing bs with
  | nil =>
    rw [List.mapM_nil, List.forall₂_nil_left_iff]
    exact ⟨fun h ↦ (Except.ok.inj h).symm, fun h ↦ congrArg Except.ok h.symm⟩
  | cons a as ih =>
    rw [List.mapM_cons, List.forall₂_cons_left_iff]
    simp only [andThen_eq_ok, ih]
    constructor
    · rintro ⟨b, hb, bs', hbs, h⟩
      exact ⟨b, bs', hb, hbs, (Except.ok.inj h).symm⟩
    · rintro ⟨b, bs', hb, hbs, rfl⟩
      exact ⟨b, hb, bs', hbs, rfl⟩

/-- The parts of a field, as they are read one by one. -/
theorem forall₂_parsePart_iff (hspec : spec.min ≤ spec.max) {ts : List Text} {ss : List Span} :
    List.Forall₂ (fun t s ↦ parsePart spec raw t = .ok s) ts ss ↔
      ∃ ps : List CronPart, (∀ p ∈ ps, p.IsWritten ∧ p.Taken spec) ∧ ps.map CronPart.text = ts ∧
        ps.map (CronPart.span spec) = ss := by
  constructor
  · intro h
    induction h with
    | nil => exact ⟨[], fun _ hp ↦ absurd hp List.not_mem_nil, rfl, rfl⟩
    | cons h _ ih =>
      obtain ⟨p, hp, rfl, htaken, rfl⟩ := (parsePart_eq_ok_iff hspec).mp h
      obtain ⟨ps, hps, rfl, rfl⟩ := ih
      exact ⟨p :: ps, List.forall_mem_cons.mpr ⟨⟨hp, htaken⟩, hps⟩, rfl, rfl⟩
  · rintro ⟨ps, hps, rfl, rfl⟩
    rw [List.forall₂_map_left_iff, List.forall₂_map_right_iff, List.forall₂_same]
    exact fun p hp ↦ (parsePart_eq_ok_iff hspec).mpr ⟨p, (hps p hp).1, rfl, (hps p hp).2, rfl⟩

/-- **What a field is read as.** It is read just when it is written in parts whose bounds are in
order, and then holds what the parts hold. -/
theorem parseField_eq_ok_iff (hspec : spec.min ≤ spec.max) {field : CronField} :
    parseField spec raw = .ok field ↔ ∃ ps, IsWrittenAs raw ps ∧ (∀ p ∈ ps, p.Taken spec) ∧
      field = ⟨ps.flatMap fun p ↦ (p.span spec).values, decide (raw ≠ [star])⟩ := by
  rw [parseField, ite_error_eq_ok, List.isEmpty_iff, andThen_eq_ok]
  simp only [mapM_eq_ok_iff, forall₂_parsePart_iff hspec, Except.ok.injEq]
  constructor
  · rintro ⟨-, ss, ⟨ps, hps, htext, rfl⟩, rfl⟩
    obtain ⟨hne, -, hjoin⟩ := Split.splitOn_eq_iff.mp htext.symm
    refine ⟨ps, ⟨fun hnil ↦ hne (List.map_eq_nil_iff.mpr hnil), fun p hp ↦ (hps p hp).1, hjoin⟩,
      fun p hp ↦ (hps p hp).2, ?_⟩
    rw [List.flatMap_map]
  · rintro ⟨ps, hwritten, htaken, rfl⟩
    refine ⟨?_, _, ⟨ps, fun p hp ↦ ⟨hwritten.isWritten p hp, htaken p hp⟩,
      hwritten.splitOn_eq.symm, rfl⟩, ?_⟩
    · rintro rfl
      have hsplit : [[]] = ps.map CronPart.text := hwritten.splitOn_eq
      obtain ⟨p, hp, hnil⟩ : ∃ p ∈ ps, p.text = [] :=
        List.mem_map.mp (hsplit ▸ List.mem_singleton_self _)
      exact CronPart.text_ne_nil (hwritten.isWritten p hp) hnil
    · rw [List.flatMap_map]

end QwenHarness.Scheduler
