import QwenHarness.Scheduler.CronGrammar

/-!
# What cron fields mean, and where days of the week differ

A field means what its parts denote: the numbers from one to another, by steps, with day 7 read as
Sunday wherever it comes up. The parser turns day 7 into day 0 before it compares the ends of a
range, so a range that ends or starts on day 7 is read as another one. `parseCron_meets_iff` says
for which expressions that does not show.
-/

namespace QwenHarness.Scheduler

open Utf16

/-! ## What a field means -/

/-- The last number that may be written. A day of the week may be 7. -/
def FieldSpec.lastWritten (spec : FieldSpec) : ℕ :=
  if spec.name = .dayOfWeek then 7 else spec.max

namespace CronItem

/-- The numbers are in the field, and those of a range in order. -/
def InRange (spec : FieldSpec) : CronItem → Prop
  | star => True
  | number n => spec.min ≤ numeral n ∧ numeral n ≤ spec.lastWritten
  | range a b =>
    spec.min ≤ numeral a ∧ numeral a ≤ numeral b ∧ numeral b ≤ spec.lastWritten

/-- From where to where a part goes. -/
def extent (spec : FieldSpec) (hasStep : Bool) : CronItem → ℕ × ℕ
  | star => (spec.min, spec.max)
  | number n =>
    let first := normalize (numeral n) spec
    (first, if hasStep then spec.max else first)
  | range a b => (numeral a, numeral b)

end CronItem

/-- A number is denoted that is some steps from the first and not past the last, with day 7 as
Sunday. -/
def CronPart.Denotes (spec : FieldSpec) (p : CronPart) (v : ℕ) : Prop :=
  ∃ k, (p.item.extent spec p.step.isSome).1 + k * p.stepSize ≤
      (p.item.extent spec p.step.isSome).2 ∧
    normalize ((p.item.extent spec p.step.isSome).1 + k * p.stepSize) spec = v

/-- A field is a list of parts that are in range. -/
def WellWritten (spec : FieldSpec) (raw : Text) : Prop :=
  ∃ ps, IsWrittenAs raw ps ∧ ∀ p ∈ ps, p.item.InRange spec

def CronFieldName.spec : CronFieldName → FieldSpec
  | minute => minuteSpec
  | hour => hourSpec
  | dayOfMonth => dayOfMonthSpec
  | month => monthSpec
  | dayOfWeek => dayOfWeekSpec

def CronFieldName.all : List CronFieldName := [minute, hour, dayOfMonth, month, dayOfWeek]

def CronExpr.values (e : CronExpr) : CronFieldName → List ℕ
  | .minute => e.minute
  | .hour => e.hour
  | .dayOfMonth => e.dayOfMonth
  | .month => e.month
  | .dayOfWeek => e.dayOfWeek

/-- An expression of the given fields is accepted just when they are well written, and each field
then holds what its parts denote. -/
structure Meets (expr : Text) (raw : CronFieldName → Text) : Prop where
  accepts_iff : (∃ e, parseCron expr = .ok e) ↔ ∀ name : CronFieldName,
    WellWritten name.spec (raw name)
  mem_iff : ∀ e, parseCron expr = .ok e → ∀ (name : CronFieldName) (ps : List CronPart),
    IsWrittenAs (raw name) ps →
      ∀ v, v ∈ e.values name ↔ ∃ p ∈ ps, p.Denotes name.spec v

/-! ## Ranges to and from Sunday -/

namespace CronItem

/-- A range from Monday or a later day to day 7. -/
def ToSunday : CronItem → Prop
  | range a b => 1 ≤ numeral a ∧ numeral a ≤ 6 ∧ numeral b = 7
  | _ => False

/-- A range from day 7 to a day before. -/
def FromSunday : CronItem → Prop
  | range a b => numeral a = 7 ∧ numeral b ≤ 6
  | _ => False

/-- The range from day 0 to day 7. -/
def WholeWeek : CronItem → Prop
  | range a b => numeral a = 0 ∧ numeral b = 7
  | _ => False

/-- There is no such day, or a range whose days are out of order, day 7 apart. -/
def Outside : CronItem → Prop
  | star => False
  | number n => 7 < numeral n
  | range a b => 7 < numeral a ∨ 7 < numeral b ∨ numeral a ≤ 6 ∧ numeral b < numeral a

end CronItem

/-- The parts of a day of the week for which it does not show that day 7 is turned into day 0 too
early: one of them is wrong either way, or one range is wrong only before and another only after,
or what `0-7` should hold is held by the other parts. -/
def SundayAgrees (ps : List CronPart) : Prop :=
  (∃ p ∈ ps, p.item.Outside) ∨
  ((∃ p ∈ ps, p.item.ToSunday) ∧ ∃ p ∈ ps, p.item.FromSunday) ∨
  ((∀ p ∈ ps, ¬p.item.ToSunday ∧ ¬p.item.FromSunday) ∧
    ∀ p ∈ ps, p.item.WholeWeek → ∀ k, k ≠ 0 → k * p.stepSize ≤ 6 →
      ∃ q ∈ ps, ¬q.item.WholeWeek ∧ q.Denotes dayOfWeekSpec (k * p.stepSize))

/-! ## A field -/

/-- A field is accepted just when it is well written, and then holds what its parts denote. -/
structure FieldMeets (spec : FieldSpec) (raw : Text) : Prop where
  accepts_iff : (∃ field, parseField spec raw = .ok field) ↔ WellWritten spec raw
  mem_iff : ∀ field, parseField spec raw = .ok field → ∀ ps, IsWrittenAs raw ps →
    ∀ v, v ∈ field.values ↔ ∃ p ∈ ps, p.Denotes spec v

section Field

variable {spec : FieldSpec} {raw : Text} {ps : List CronPart} {p : CronPart} {v : ℕ}

theorem CronPart.IsWritten.stepSize_pos (hp : p.IsWritten) : 0 < p.stepSize := by
  rcases p with ⟨item, - | s⟩
  · exact Nat.one_pos
  · exact Nat.pos_of_ne_zero (hp.2 s rfl).2

theorem Span.mem_values {s : Span} (hstep : 0 < s.step) :
    v ∈ s.values ↔ ∃ k, s.lo + k * s.step ≤ s.hi ∧ s.lo + k * s.step = v := by
  rw [Span.values]
  split
  · next hlt =>
    refine iff_of_false List.not_mem_nil ?_
    rintro ⟨k, hk, -⟩
    omega
  · next hle =>
    rw [List.mem_range']
    constructor
    · rintro ⟨k, hk, rfl⟩
      have hmul : k * s.step ≤ s.hi - s.lo :=
        (Nat.le_div_iff_mul_le hstep).mp (Nat.lt_succ_iff.mp hk)
      rw [Nat.mul_comm s.step k]
      exact ⟨k, by omega, rfl⟩
    · rintro ⟨k, hk, rfl⟩
      refine ⟨k, Nat.lt_succ_iff.mpr ((Nat.le_div_iff_mul_le hstep).mpr ?_), ?_⟩
      · omega
      · rw [Nat.mul_comm]

/-- A part whose ends are left as they are holds what it denotes. -/
theorem CronPart.mem_values_iff (hp : p.IsWritten)
    (hbounds : p.item.bounds spec p.step.isSome = p.item.extent spec p.step.isSome)
    (hstable : ∀ n ≤ (p.span spec).hi, normalize n spec = n) :
    v ∈ (p.span spec).values ↔ p.Denotes spec v := by
  rw [Span.mem_values (hp.stepSize_pos : 0 < (p.span spec).step), CronPart.Denotes, ← hbounds]
  constructor
  · rintro ⟨k, hk, rfl⟩
    exact ⟨k, hk, hstable _ hk⟩
  · rintro ⟨k, hk, rfl⟩
    exact ⟨k, hk, (hstable _ hk).symm⟩

theorem accepted_iff (hspec : spec.min ≤ spec.max) (h : IsWrittenAs raw ps) :
    (∃ field, parseField spec raw = .ok field) ↔ ∀ p ∈ ps, p.Taken spec := by
  constructor
  · rintro ⟨field, hfield⟩
    obtain ⟨qs, hqs, htaken, -⟩ := (parseField_eq_ok_iff hspec).mp hfield
    rwa [h.unique hqs]
  · exact fun htaken ↦ ⟨_, (parseField_eq_ok_iff hspec).mpr ⟨ps, h, htaken, rfl⟩⟩

theorem wellWritten_iff (h : IsWrittenAs raw ps) :
    WellWritten spec raw ↔ ∀ p ∈ ps, p.item.InRange spec := by
  constructor
  · rintro ⟨qs, hqs, hrange⟩
    rwa [h.unique hqs]
  · exact fun hrange ↦ ⟨ps, h, hrange⟩

theorem mem_values_of_parseField (hspec : spec.min ≤ spec.max) {field : CronField}
    (h : IsWrittenAs raw ps) (hfield : parseField spec raw = .ok field) :
    v ∈ field.values ↔ ∃ p ∈ ps, v ∈ (p.span spec).values := by
  obtain ⟨qs, hqs, -, rfl⟩ := (parseField_eq_ok_iff hspec).mp hfield
  rw [h.unique hqs, List.mem_flatMap]

/-- **What is left to show of a field**, once its parts are known: that it takes the parts that are
in range, and then holds what they denote. -/
theorem fieldMeets_iff (hspec : spec.min ≤ spec.max) : FieldMeets spec raw ↔
    ∀ ps, IsWrittenAs raw ps →
      ((∀ p ∈ ps, p.Taken spec) ↔ ∀ p ∈ ps, p.item.InRange spec) ∧
      ((∀ p ∈ ps, p.Taken spec) → ∀ v, (∃ p ∈ ps, v ∈ (p.span spec).values) ↔
        ∃ p ∈ ps, p.Denotes spec v) := by
  constructor
  · intro h ps hps
    refine ⟨?_, fun htaken v ↦ ?_⟩
    · rw [← accepted_iff hspec hps, h.accepts_iff, wellWritten_iff hps]
    · obtain ⟨field, hfield⟩ := (accepted_iff hspec hps).mpr htaken
      rw [← mem_values_of_parseField hspec hps hfield, h.mem_iff field hfield ps hps v]
  · intro h
    constructor
    · constructor
      · rintro ⟨field, hfield⟩
        obtain ⟨ps, hps, htaken, -⟩ := (parseField_eq_ok_iff hspec).mp hfield
        exact ⟨ps, hps, (h ps hps).1.mp htaken⟩
      · rintro ⟨ps, hps, hrange⟩
        exact (accepted_iff hspec hps).mpr ((h ps hps).1.mpr hrange)
    · intro field hfield ps hps v
      rw [mem_values_of_parseField hspec hps hfield]
      exact (h ps hps).2 ((accepted_iff hspec hps).mp ⟨field, hfield⟩) v

/-- Any field but the day of the week meets what it means. -/
theorem fieldMeets_of_ne (hspec : spec.min ≤ spec.max) (hname : spec.name ≠ .dayOfWeek) :
    FieldMeets spec raw := by
  have hstable (n : ℕ) : normalize n spec = n := if_neg fun h ↦ hname h.1
  have hlast : spec.lastWritten = spec.max := if_neg hname
  have hbounds (p : CronPart) :
      p.item.bounds spec p.step.isSome = p.item.extent spec p.step.isSome := by
    cases h : p.item with
    | star => rfl
    | number n => rfl
    | range a b => rw [CronItem.bounds, CronItem.extent, hstable, hstable]
  refine (fieldMeets_iff hspec).mpr fun ps hps ↦ ⟨?_, fun _ v ↦ ?_⟩
  · refine forall₂_congr fun p _ ↦ ?_
    rcases p with ⟨- | n | ⟨a, b⟩, - | s⟩ <;>
      simp [CronPart.Taken, CronPart.span, CronItem.bounds, CronItem.InRange, hstable, hlast] <;>
      omega
  · refine exists_congr fun p ↦ and_congr_right fun hp ↦ ?_
    exact CronPart.mem_values_iff (hps.isWritten p hp) (hbounds p) fun n _ ↦ hstable n

end Field

/-! ## The day of the week -/

section DayOfWeek

variable {i : CronItem} {p : CronPart} {ps : List CronPart} {raw : Text} {v : ℕ}

theorem normalize_dayOfWeek (n : ℕ) : normalize n dayOfWeekSpec = if n = 7 then 0 else n := by
  rw [normalize]
  exact if_congr (and_iff_right rfl) rfl rfl

theorem inRange_dayOfWeek_iff :
    i.InRange dayOfWeekSpec ↔ ¬i.Outside ∧ ¬i.FromSunday := by
  have hlast : dayOfWeekSpec.lastWritten = 7 := rfl
  have hmin : dayOfWeekSpec.min = 0 := rfl
  cases i with
  | star => exact iff_of_true trivial ⟨not_false, not_false⟩
  | number n =>
    rw [CronItem.InRange, hlast, hmin, CronItem.Outside, not_lt]
    exact ⟨fun h ↦ ⟨h.2, not_false⟩, fun h ↦ ⟨Nat.zero_le _, h.1⟩⟩
  | range a b =>
    rw [CronItem.InRange, hlast, hmin, CronItem.Outside, CronItem.FromSunday]
    omega

theorem taken_dayOfWeek_iff :
    p.Taken dayOfWeekSpec ↔ ¬p.item.Outside ∧ ¬p.item.ToSunday := by
  have hmax : dayOfWeekSpec.max = 6 := rfl
  have hmin : dayOfWeekSpec.min = 0 := rfl
  rcases p with ⟨- | n | ⟨a, b⟩, - | s⟩ <;>
    simp [CronPart.Taken, CronPart.span, CronItem.bounds, CronItem.Outside, CronItem.ToSunday,
      normalize_dayOfWeek, hmax, hmin] <;> split_ifs <;> omega

/-- A part that holds one number only. -/
theorem mem_values_of_eq {s : Span} (hstep : 0 < s.step) (h : s.lo = s.hi) :
    v ∈ s.values ↔ v = s.lo := by
  rw [Span.mem_values hstep, ← h]
  constructor
  · rintro ⟨k, hk, rfl⟩
    omega
  · rintro rfl
    exact ⟨0, by omega, by omega⟩

/-- A part that does not go from day 0 to day 7 holds what it denotes. -/
theorem mem_values_dayOfWeek (hp : p.IsWritten) (htaken : p.Taken dayOfWeekSpec)
    (hrange : p.item.InRange dayOfWeekSpec) (hweek : ¬p.item.WholeWeek) :
    v ∈ (p.span dayOfWeekSpec).values ↔ p.Denotes dayOfWeekSpec v := by
  have hstable : ∀ n ≤ (p.span dayOfWeekSpec).hi, normalize n dayOfWeekSpec = n := by
    intro n hn
    have hmax : (p.span dayOfWeekSpec).hi ≤ 6 := htaken.2.2
    rw [normalize_dayOfWeek, if_neg (by omega)]
  obtain ⟨houtside, hto⟩ := taken_dayOfWeek_iff.mp htaken
  have hfrom := (inRange_dayOfWeek_iff.mp hrange).2
  by_cases hbounds : p.item.bounds dayOfWeekSpec p.step.isSome =
      p.item.extent dayOfWeekSpec p.step.isSome
  · exact CronPart.mem_values_iff hp hbounds hstable
  · -- What is left is the range from day 7 to itself.
    rcases p with ⟨- | n | ⟨a, b⟩, step⟩
    · exact absurd rfl hbounds
    · exact absurd rfl hbounds
    · have hab : numeral a = 7 ∧ numeral b = 7 := by
        rw [CronItem.bounds, CronItem.extent, normalize_dayOfWeek, normalize_dayOfWeek,
          Prod.mk.injEq] at hbounds
        simp only [CronItem.Outside, CronItem.ToSunday, CronItem.FromSunday, CronItem.WholeWeek]
          at houtside hto hfrom hweek
        split_ifs at hbounds <;> omega
      have hlo : normalize (numeral a) dayOfWeekSpec = 0 := by rw [hab.1]; rfl
      have hhi : normalize (numeral b) dayOfWeekSpec = 0 := by rw [hab.2]; rfl
      rw [mem_values_of_eq hp.stepSize_pos (hlo.trans hhi.symm)]
      constructor
      · intro hv
        refine ⟨0, ?_, ?_⟩
        · rw [Nat.zero_mul]
          exact (hab.1.trans hab.2.symm).le
        · rw [Nat.zero_mul]
          exact hv.symm
      · rintro ⟨k, hk, rfl⟩
        have hpos : 0 < (CronPart.mk (.range a b) step).stepSize := hp.stepSize_pos
        have hle : numeral a + k * (CronPart.mk (.range a b) step).stepSize ≤ numeral b := hk
        have hzero : k * (CronPart.mk (.range a b) step).stepSize = 0 := by omega
        rw [hzero]
        rfl

/-- The whole week is read as Sunday alone. -/
theorem mem_values_wholeWeek (hp : p.IsWritten) (hweek : p.item.WholeWeek) :
    v ∈ (p.span dayOfWeekSpec).values ↔ v = 0 := by
  rcases p with ⟨- | n | ⟨a, b⟩, step⟩
  · exact hweek.elim
  · exact hweek.elim
  · obtain ⟨ha, hb⟩ : numeral a = 0 ∧ numeral b = 7 := hweek
    have hlo : normalize (numeral a) dayOfWeekSpec = 0 := by rw [ha]; rfl
    have hhi : normalize (numeral b) dayOfWeekSpec = 0 := by rw [hb]; rfl
    rw [mem_values_of_eq hp.stepSize_pos (hlo.trans hhi.symm)]
    exact Eq.congr_right hlo

/-- It denotes Sunday, and what is some steps later. -/
theorem denotes_wholeWeek_iff (hweek : p.item.WholeWeek) :
    p.Denotes dayOfWeekSpec v ↔ v = 0 ∨ ∃ k, k ≠ 0 ∧ k * p.stepSize ≤ 6 ∧ k * p.stepSize = v := by
  rcases p with ⟨- | n | ⟨a, b⟩, step⟩
  · exact hweek.elim
  · exact hweek.elim
  · obtain ⟨ha, hb⟩ : numeral a = 0 ∧ numeral b = 7 := hweek
    rw [CronPart.Denotes]
    simp only [CronItem.extent, ha, hb, Nat.zero_add, normalize_dayOfWeek]
    generalize (CronPart.mk (.range a b) step).stepSize = size
    constructor
    · rintro ⟨k, hk, rfl⟩
      by_cases hseven : k * size = 7
      · exact Or.inl (if_pos hseven)
      · rw [if_neg hseven]
        rcases Nat.eq_zero_or_pos k with rfl | hpos
        · exact Or.inl (Nat.zero_mul _)
        · exact Or.inr ⟨k, by omega, by omega, rfl⟩
    · rintro (rfl | ⟨k, -, hk, rfl⟩)
      · exact ⟨0, by omega, by rw [Nat.zero_mul]; rfl⟩
      · exact ⟨k, by omega, if_neg (by omega)⟩

/-- The parts are taken just when they are in range, or there is a wrong one either way. -/
theorem taken_iff_inRange_dayOfWeek :
    ((∀ p ∈ ps, p.Taken dayOfWeekSpec) ↔ ∀ p ∈ ps, p.item.InRange dayOfWeekSpec) ↔
      (∃ p ∈ ps, p.item.Outside) ∨
      ((∃ p ∈ ps, p.item.ToSunday) ∧ ∃ p ∈ ps, p.item.FromSunday) ∨
      ∀ p ∈ ps, ¬p.item.ToSunday ∧ ¬p.item.FromSunday := by
  simp only [taken_dayOfWeek_iff, inRange_dayOfWeek_iff]
  constructor
  · intro h
    by_cases htaken : ∀ p ∈ ps, ¬p.item.Outside ∧ ¬p.item.ToSunday
    · exact Or.inr (Or.inr fun p hp ↦ ⟨(htaken p hp).2, (h.mp htaken p hp).2⟩)
    · have hrange : ¬∀ p ∈ ps, ¬p.item.Outside ∧ ¬p.item.FromSunday := fun hr ↦
        htaken (h.mpr hr)
      simp only [not_forall, not_and_or, not_not] at htaken hrange
      obtain ⟨p, hp, hout | hto⟩ := htaken
      · exact Or.inl ⟨p, hp, hout⟩
      · obtain ⟨q, hq, hout | hfrom⟩ := hrange
        · exact Or.inl ⟨q, hq, hout⟩
        · exact Or.inr (Or.inl ⟨⟨p, hp, hto⟩, q, hq, hfrom⟩)
  · rintro (⟨p, hp, hout⟩ | ⟨⟨p, hp, hto⟩, q, hq, hfrom⟩ | hnone)
    · exact iff_of_false (fun h ↦ (h p hp).1 hout) fun h ↦ (h p hp).1 hout
    · exact iff_of_false (fun h ↦ (h p hp).2 hto) fun h ↦ (h q hq).2 hfrom
    · exact forall₂_congr fun p hp ↦ and_congr_right fun _ ↦
        iff_of_true (hnone p hp).1 (hnone p hp).2

/-- Parts that are taken and in range hold what they denote just when what `0-7` should hold is
held by the others. -/
theorem values_dayOfWeek_iff (hwritten : ∀ p ∈ ps, p.IsWritten)
    (htaken : ∀ p ∈ ps, p.Taken dayOfWeekSpec)
    (hrange : ∀ p ∈ ps, p.item.InRange dayOfWeekSpec) :
    (∀ v, (∃ p ∈ ps, v ∈ (p.span dayOfWeekSpec).values) ↔
      ∃ p ∈ ps, p.Denotes dayOfWeekSpec v) ↔
      ∀ p ∈ ps, p.item.WholeWeek → ∀ k, k ≠ 0 → k * p.stepSize ≤ 6 →
        ∃ q ∈ ps, ¬q.item.WholeWeek ∧ q.Denotes dayOfWeekSpec (k * p.stepSize) := by
  have hother {q : CronPart} {v : ℕ} (hq : q ∈ ps) (hweek : ¬q.item.WholeWeek) :
      v ∈ (q.span dayOfWeekSpec).values ↔ q.Denotes dayOfWeekSpec v :=
    mem_values_dayOfWeek (hwritten q hq) (htaken q hq) (hrange q hq) hweek
  constructor
  · intro h p hp hweek k hk hle
    have hdenotes : p.Denotes dayOfWeekSpec (k * p.stepSize) :=
      (denotes_wholeWeek_iff hweek).mpr (Or.inr ⟨k, hk, hle, rfl⟩)
    obtain ⟨q, hq, hv⟩ := (h _).mpr ⟨p, hp, hdenotes⟩
    by_cases hqweek : q.item.WholeWeek
    · have hzero : k * p.stepSize = 0 := (mem_values_wholeWeek (hwritten q hq) hqweek).mp hv
      rcases Nat.mul_eq_zero.mp hzero with hzero | hzero
      · exact absurd hzero hk
      · exact absurd hzero (hwritten p hp).stepSize_pos.ne'
    · exact ⟨q, hq, hqweek, (hother hq hqweek).mp hv⟩
  · intro h v
    constructor
    · rintro ⟨p, hp, hv⟩
      refine ⟨p, hp, ?_⟩
      by_cases hweek : p.item.WholeWeek
      · exact (denotes_wholeWeek_iff hweek).mpr
          (Or.inl ((mem_values_wholeWeek (hwritten p hp) hweek).mp hv))
      · exact (hother hp hweek).mp hv
    · rintro ⟨p, hp, hv⟩
      by_cases hweek : p.item.WholeWeek
      · rcases (denotes_wholeWeek_iff hweek).mp hv with rfl | ⟨k, hk, hle, rfl⟩
        · exact ⟨p, hp, (mem_values_wholeWeek (hwritten p hp) hweek).mpr rfl⟩
        · obtain ⟨q, hq, hqweek, hqv⟩ := h p hp hweek k hk hle
          exact ⟨q, hq, (hother hq hqweek).mpr hqv⟩
      · exact ⟨p, hp, (hother hp hweek).mpr hv⟩

/-- **When a day of the week meets what it means.** -/
theorem fieldMeets_dayOfWeek_iff : FieldMeets dayOfWeekSpec raw ↔
    ∀ ps, IsWrittenAs raw ps → SundayAgrees ps := by
  rw [fieldMeets_iff (by decide)]
  refine forall₂_congr fun ps hps ↦ ?_
  rw [taken_iff_inRange_dayOfWeek]
  constructor
  · rintro ⟨hout | hboth | hnone, hvalues⟩
    · exact Or.inl hout
    · exact Or.inr (Or.inl hboth)
    · by_cases hout : ∃ p ∈ ps, p.item.Outside
      · exact Or.inl hout
      · have hin : ∀ p ∈ ps, ¬p.item.Outside := fun p hp h ↦ hout ⟨p, hp, h⟩
        have htaken : ∀ p ∈ ps, p.Taken dayOfWeekSpec := fun p hp ↦
          taken_dayOfWeek_iff.mpr ⟨hin p hp, (hnone p hp).1⟩
        refine Or.inr (Or.inr ⟨hnone, (values_dayOfWeek_iff hps.isWritten htaken fun p hp ↦ ?_).mp
          (hvalues htaken)⟩)
        exact inRange_dayOfWeek_iff.mpr ⟨hin p hp, (hnone p hp).2⟩
  · rintro (⟨p, hp, hout⟩ | ⟨⟨p, hp, hto⟩, hfrom⟩ | ⟨hnone, hweek⟩)
    · exact ⟨Or.inl ⟨p, hp, hout⟩,
        fun htaken ↦ absurd hout (taken_dayOfWeek_iff.mp (htaken p hp)).1⟩
    · exact ⟨Or.inr (Or.inl ⟨⟨p, hp, hto⟩, hfrom⟩),
        fun htaken ↦ absurd hto (taken_dayOfWeek_iff.mp (htaken p hp)).2⟩
    · refine ⟨Or.inr (Or.inr hnone), fun htaken ↦ ?_⟩
      refine (values_dayOfWeek_iff hps.isWritten htaken fun p hp ↦ ?_).mpr hweek
      exact inRange_dayOfWeek_iff.mpr
        ⟨(taken_dayOfWeek_iff.mp (htaken p hp)).1, (hnone p hp).2⟩

end DayOfWeek

/-! ## Expressions -/

section Expressions

variable {expr : Text} {raw : CronFieldName → Text} {e : CronExpr}

theorem min_le_max (name : CronFieldName) : name.spec.min ≤ name.spec.max := by
  cases name <;> decide

/-- An expression is accepted just when its five fields are. -/
theorem parseCron_eq_ok_iff (h : fieldsOf expr = CronFieldName.all.map raw) :
    parseCron expr = .ok e ↔ ∃ fields : CronFieldName → CronField,
      (∀ name : CronFieldName, parseField name.spec (raw name) = .ok (fields name)) ∧
      { source := trim expr
        minute := (fields .minute).values
        hour := (fields .hour).values
        dayOfMonth := (fields .dayOfMonth).values
        month := (fields .month).values
        dayOfWeek := (fields .dayOfWeek).values
        domRestricted := (fields .dayOfMonth).restricted
        dowRestricted := (fields .dayOfWeek).restricted } = e := by
  have hfields : fieldsOf expr = [raw .minute, raw .hour, raw .dayOfMonth, raw .month,
    raw .dayOfWeek] := h
  rw [parseCron, hfields]
  simp only [andThen_eq_ok, Except.ok.injEq]
  constructor
  · rintro ⟨minute, hminute, hour, hhour, dayOfMonth, hdayOfMonth, month, hmonth, dayOfWeek,
      hdayOfWeek, rfl⟩
    refine ⟨fun name ↦ CronFieldName.rec minute hour dayOfMonth month dayOfWeek name, ?_, rfl⟩
    intro name
    cases name
    · exact hminute
    · exact hhour
    · exact hdayOfMonth
    · exact hmonth
    · exact hdayOfWeek
  · rintro ⟨fields, hall, rfl⟩
    exact ⟨_, hall .minute, _, hall .hour, _, hall .dayOfMonth, _, hall .month, _,
      hall .dayOfWeek, rfl⟩

theorem exists_parseCron_iff (h : fieldsOf expr = CronFieldName.all.map raw) :
    (∃ e, parseCron expr = .ok e) ↔
      ∀ name : CronFieldName, ∃ field, parseField name.spec (raw name) = .ok field := by
  constructor
  · rintro ⟨e, he⟩
    obtain ⟨fields, hfields, -⟩ := (parseCron_eq_ok_iff h).mp he
    exact fun name ↦ ⟨fields name, hfields name⟩
  · intro hall
    choose fields hfields using hall
    exact ⟨_, (parseCron_eq_ok_iff h).mpr ⟨fields, hfields, rfl⟩⟩

/-- The numbers of an expression are those of its fields. -/
theorem exists_values_of_parseCron (h : fieldsOf expr = CronFieldName.all.map raw)
    (he : parseCron expr = .ok e) (name : CronFieldName) :
    ∃ field, parseField name.spec (raw name) = .ok field ∧ e.values name = field.values := by
  obtain ⟨fields, hfields, rfl⟩ := (parseCron_eq_ok_iff h).mp he
  refine ⟨fields name, hfields name, ?_⟩
  cases name <;> rfl

theorem fieldMeets_of_ne_dayOfWeek {name : CronFieldName} (hname : name ≠ .dayOfWeek)
    (raw : Text) : FieldMeets name.spec raw := by
  refine fieldMeets_of_ne (min_le_max name) ?_
  cases name with
  | dayOfWeek => exact absurd rfl hname
  | _ => decide

/-- An expression meets what it means just when its day of the week does, or another field is not
well written. -/
theorem meets_iff_fieldMeets (h : fieldsOf expr = CronFieldName.all.map raw) : Meets expr raw ↔
    (∃ name : CronFieldName, name ≠ .dayOfWeek ∧ ¬WellWritten name.spec (raw name)) ∨
      FieldMeets dayOfWeekSpec (raw .dayOfWeek) := by
  have hother {name : CronFieldName} (hname : name ≠ .dayOfWeek) :
      FieldMeets name.spec (raw name) := fieldMeets_of_ne_dayOfWeek hname _
  constructor
  · intro hmeets
    refine or_iff_not_imp_left.mpr fun hwell ↦ ?_
    have hwritten {name : CronFieldName} (hname : name ≠ .dayOfWeek) :
        WellWritten name.spec (raw name) := not_not.mp fun hnot ↦ hwell ⟨name, hname, hnot⟩
    have haccepts := hmeets.accepts_iff
    rw [exists_parseCron_iff h] at haccepts
    constructor
    · constructor
      · intro hday
        refine haccepts.mp (fun name ↦ ?_) .dayOfWeek
        by_cases hname : name = .dayOfWeek
        · rw [hname]
          exact hday
        · exact (hother hname).accepts_iff.mpr (hwritten hname)
      · intro hday
        refine haccepts.mpr (fun name ↦ ?_) .dayOfWeek
        by_cases hname : name = .dayOfWeek
        · rw [hname]
          exact hday
        · exact hwritten hname
    · intro field hfield ps hps v
      have hall : ∀ name : CronFieldName, ∃ field, parseField name.spec (raw name) = .ok field := by
        intro name
        by_cases hname : name = .dayOfWeek
        · rw [hname]
          exact ⟨field, hfield⟩
        · exact (hother hname).accepts_iff.mpr (hwritten hname)
      obtain ⟨e, he⟩ := (exists_parseCron_iff h).mpr hall
      obtain ⟨field', hfield', hvalues⟩ := exists_values_of_parseCron h he .dayOfWeek
      have hsame : field = field' := Except.ok.inj (hfield.symm.trans hfield')
      rw [hsame, ← hvalues]
      exact hmeets.mem_iff e he .dayOfWeek ps hps v
  · rintro (⟨name, hname, hnot⟩ | hday)
    · have hrefused : ¬∃ e, parseCron expr = .ok e := fun hok ↦
        hnot ((hother hname).accepts_iff.mp ((exists_parseCron_iff h).mp hok name))
      exact ⟨iff_of_false hrefused fun hall ↦ hnot (hall name),
        fun e he ↦ absurd ⟨e, he⟩ hrefused⟩
    · have hall (name : CronFieldName) : FieldMeets name.spec (raw name) := by
        by_cases hname : name = .dayOfWeek
        · rw [hname]
          exact hday
        · exact hother hname
      constructor
      · rw [exists_parseCron_iff h]
        exact forall_congr' fun name ↦ (hall name).accepts_iff
      · intro e he name ps hps v
        obtain ⟨field, hfield, hvalues⟩ := exists_values_of_parseCron h he name
        rw [hvalues]
        exact (hall name).mem_iff field hfield ps hps v

/-- **When an expression meets what it means.** Another field is not well written, or it does not
show in the day of the week that day 7 is turned into day 0 too early. -/
theorem parseCron_meets_iff (h : fieldsOf expr = CronFieldName.all.map raw) : Meets expr raw ↔
    (∃ name : CronFieldName, name ≠ .dayOfWeek ∧ ¬WellWritten name.spec (raw name)) ∨
      ∀ ps, IsWrittenAs (raw .dayOfWeek) ps → SundayAgrees ps := by
  rw [meets_iff_fieldMeets h, fieldMeets_dayOfWeek_iff]

/-! ## Monday to Friday, and Friday to Sunday -/

def starPart : CronPart := ⟨.star, none⟩

theorem isWrittenAs_singleton {raw : Text} {p : CronPart} (hp : p.IsWritten) (h : p.text = raw) :
    IsWrittenAs raw [p] where
  ne_nil := List.cons_ne_nil _ _
  isWritten := List.forall_mem_singleton.mpr hp
  text_eq := by rw [List.map_singleton, List.intercalate_singleton, h]

theorem wellWritten_singleton {spec : FieldSpec} {raw : Text} {p : CronPart} (hp : p.IsWritten)
    (h : p.text = raw) (hrange : p.item.InRange spec) : WellWritten spec raw :=
  ⟨[p], isWrittenAs_singleton hp h, List.forall_mem_singleton.mpr hrange⟩

/-- Any minute of some days of the week. -/
def daily (days : Text) : CronFieldName → Text
  | .dayOfWeek => days
  | _ => [star]

theorem wellWritten_star (spec : FieldSpec) : WellWritten spec [star] :=
  wellWritten_singleton (p := starPart) ⟨trivial, fun s h ↦ absurd h.symm (Option.some_ne_none s)⟩
    rfl trivial

def mondayToFriday : CronPart := ⟨.range (ofString "1") (ofString "5"), none⟩

def fridayToSunday : CronPart := ⟨.range (ofString "5") (ofString "7"), none⟩

theorem isWritten_mondayToFriday : mondayToFriday.IsWritten :=
  ⟨⟨rfl, rfl⟩, fun s h ↦ absurd h.symm (Option.some_ne_none s)⟩

theorem isWritten_fridayToSunday : fridayToSunday.IsWritten :=
  ⟨⟨rfl, rfl⟩, fun s h ↦ absurd h.symm (Option.some_ne_none s)⟩

theorem parseCron_meets_iff_mondayToFriday :
    Meets (ofString "* * * * 1-5") (daily (ofString "1-5")) := by
  refine (parseCron_meets_iff (by decide)).mpr (Or.inr fun ps hps ↦ ?_)
  rw [hps.unique (isWrittenAs_singleton isWritten_mondayToFriday rfl)]
  refine Or.inr (Or.inr ⟨List.forall_mem_singleton.mpr ⟨fun h ↦ ?_, fun h ↦ ?_⟩,
    List.forall_mem_singleton.mpr fun h ↦ ?_⟩)
  · exact absurd h.2.2 (by decide)
  · exact absurd h.1 (by decide)
  · exact absurd h.2 (by decide)

/-- Friday to Sunday is refused, as a range that is out of order. -/
theorem not_meets_fridayToSunday :
    fieldsOf (ofString "* * * * 5-7") = CronFieldName.all.map (daily (ofString "5-7")) ∧
      ¬Meets (ofString "* * * * 5-7") (daily (ofString "5-7")) := by
  refine ⟨by decide, fun hmeets ↦ ?_⟩
  have hwell (name : CronFieldName) :
      WellWritten name.spec (daily (ofString "5-7") name) := by
    cases name with
    | dayOfWeek =>
      refine wellWritten_singleton isWritten_fridayToSunday rfl ⟨?_, ?_, ?_⟩ <;> decide
    | _ => exact wellWritten_star _
  obtain ⟨e, he⟩ := hmeets.accepts_iff.mpr hwell
  have hrefused : (parseCron (ofString "* * * * 5-7")).toOption = none := by decide
  rw [he] at hrefused
  exact absurd hrefused (Option.some_ne_none e)

end Expressions

end QwenHarness.Scheduler
